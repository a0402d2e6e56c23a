import EditorSchema.Content.Filter
import EditorSchema.Main
import EditorSchema.Proofs.Attributes.Clashes
import EditorSchema.Proofs.Attributes.Diamond
import EditorSchema.Proofs.Attributes.Forms
import EditorSchema.Proofs.Attributes.Superseded
import EditorSchema.Proofs.Attributes.WholeAncestry
import EditorSchema.Proofs.Content.Grammar
import EditorSchema.Proofs.Content.Renaming
import EditorSchema.Proofs.Content.Rendering
import EditorSchema.Proofs.Content.Reread
import EditorSchema.Proofs.Corpus.Circles
import EditorSchema.Proofs.Corpus.Closure
import EditorSchema.Proofs.Corpus.MacroReferences
import EditorSchema.Proofs.Corpus.SeedOrder
import EditorSchema.Proofs.Schema.Apart
import EditorSchema.Proofs.Schema.Binding
import EditorSchema.Proofs.Schema.Decoration
import EditorSchema.Proofs.Schema.ExactReferences
import EditorSchema.Proofs.Schema.Indexes
import EditorSchema.Proofs.Schema.LateFaults
import EditorSchema.Proofs.Schema.RecordSet
import EditorSchema.Proofs.Spec.Expanded
