import FieldSchema.Host.Tree
import FieldSchema.Main
import FieldSchema.Proofs.Columns
import FieldSchema.Proofs.Defaults
import FieldSchema.Proofs.Description
import FieldSchema.Proofs.FieldByField
import FieldSchema.Proofs.Grounds
import FieldSchema.Proofs.History
import FieldSchema.Proofs.Keeping
import FieldSchema.Proofs.KeyOrder
import FieldSchema.Proofs.LastDeclarations
import FieldSchema.Proofs.Loosening
import FieldSchema.Proofs.MergeOrder
import FieldSchema.Proofs.MergePatch
import FieldSchema.Proofs.Projection
import FieldSchema.Proofs.Reapplication
import FieldSchema.Proofs.Recognition
import FieldSchema.Proofs.Recorder
import FieldSchema.Proofs.Undeclared
