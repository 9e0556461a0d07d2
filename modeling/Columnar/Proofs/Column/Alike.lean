import Columnar.Column.Basic

/-!
# Columns that are stored alike

Two columns are alike when nothing about their storage tells them apart: the arrangement, the sparse
default, the positions, the stored cells in order, the format of category indices, the precision of
instants and the texts of the dictionary. Only the payload of a NaN and the identity of the
dictionary are left open.
-/

set_option autoImplicit false
set_option relaxedAutoImplicit false

namespace Columnar

/-- Layouts that store cells of the same labels in the same places. -/
inductive Layout.Alike {S C K : Type} [Cell C] [Store S C] (label : C → K) :
    Layout S C → Layout S C → Prop
  | dense {first second : S}
    (hcells : (Store.toList first).map label = (Store.toList second).map label) :
    Alike label (.dense first) (.dense second)
  | sparse {first second : SparseStore S C} (hdefault : label first.default = label second.default)
    (hsize : first.size = second.size) (hpositions : first.positions = second.positions)
    (hexceptions : (Store.toList first.exceptions).map label =
      (Store.toList second.exceptions).map label) :
    Alike label (.sparse first) (.sparse second)

inductive ColumnData.Alike : ColumnData → ColumnData → Prop
  | numbers {first second : Layout NumberStore Binary64} (h : first.Alike Binary64.key second) :
    Alike (.numbers first) (.numbers second)
  | times {first second : Layout TimeStore Int} (h : first.Alike id second) :
    Alike (.times first) (.times second)
  | instants {first second : Layout InstantStore (Option Instant)} (h : first.Alike id second)
    (hprecision : first.prototype.isHighPrecision = second.prototype.isHighPrecision) :
    Alike (.instants first) (.instants second)
  | categories {first second : Layout IndexArray Nat} {dictionary other : Shared Dictionary}
    (h : first.Alike id second) (hformat : first.prototype.format = second.prototype.format)
    (htexts : dictionary.value.texts = other.value.texts) :
    Alike (.categories first dictionary) (.categories second other)
  | objects {first second : Layout ObjectStore Value} (h : first.Alike id second) :
    Alike (.objects first) (.objects second)

end Columnar
