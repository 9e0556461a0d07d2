import Columnar.Column.Derive
import Columnar.Ingest.TableBuilder
import Columnar.Proofs.Column.Chains
import Columnar.Proofs.Column.Covering
import Columnar.Proofs.Column.Missing
import Columnar.Proofs.Column.Readers
import Columnar.Proofs.Column.Recoding
import Columnar.Proofs.Column.Reconciling
import Columnar.Proofs.Column.Replaying
import Columnar.Proofs.Column.Sorting
import Columnar.Proofs.Column.Soundness
import Columnar.Proofs.Column.Tables
import Columnar.Proofs.Column.Usage
import Columnar.Proofs.Column.Viewing
import Columnar.Proofs.Dictionary.Compacting
import Columnar.Proofs.Dictionary.Uniting
import Columnar.Proofs.Index.Fields
import Columnar.Proofs.Index.RawBytes
import Columnar.Proofs.Index.Refinement
import Columnar.Proofs.Ingest.Bulk
import Columnar.Proofs.Ingest.Densities
import Columnar.Proofs.Ingest.Encoders
import Columnar.Proofs.Ingest.History
import Columnar.Proofs.Ingest.Phases
import Columnar.Proofs.Ingest.Pushing
import Columnar.Proofs.Ingest.Refusals
import Columnar.Proofs.Ingest.Retaining
import Columnar.Proofs.Ingest.TableRuns
import Columnar.Proofs.Ingest.Widening
import Columnar.Proofs.Mapping.Births
import Columnar.Proofs.Value.Clock
