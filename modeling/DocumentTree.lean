import DocumentTree.OpenElements.Scope
import DocumentTree.Tree.Check
import DocumentTree.Tree.Consistent
import DocumentTree.Tree.Edit
import DocumentTree.Tree.Outline
import DocumentTree.Proofs.Call.Bounds
import DocumentTree.Proofs.Call.Run
import DocumentTree.Proofs.Forest.Redundancy
import DocumentTree.Proofs.Tree.Descent
import DocumentTree.Proofs.Tree.Lawful
import DocumentTree.Proofs.Tree.Overwrite
import DocumentTree.Proofs.Tree.PlainCheck
import DocumentTree.Proofs.Forest.Subtree
import DocumentTree.Proofs.Call.Frame
import DocumentTree.Proofs.Call.TreeOrder
import DocumentTree.Proofs.Call.Stepwise
import DocumentTree.Proofs.Call.Undo
import DocumentTree.Proofs.Call.Adoption
import DocumentTree.Proofs.OpenElements.Path
import DocumentTree.Proofs.Construction
import DocumentTree.Proofs.OpenElements.Answers
import DocumentTree.Proofs.OpenElements.Brackets
import DocumentTree.Proofs.Tree.ChildList
import DocumentTree.Proofs.WarningLog
import DocumentTree.Proofs.Call.Commute
import DocumentTree.Proofs.Call.Text
import DocumentTree.Proofs.OpenElements.Scope
import DocumentTree.Proofs.OpenElements.Closing
import DocumentTree.Proofs.OpenElements.Replacement
import DocumentTree.Proofs.Tree.Outline
import DocumentTree.Proofs.OwnWarnings
import DocumentTree.Proofs.TagName
import DocumentTree.Proofs.Tree.OutlineLines
import DocumentTree.Proofs.Call.TagInStep
import DocumentTree.Proofs.AttributeMerge
import DocumentTree.Proofs.OpenElements.Positions
import DocumentTree.Proofs.Call.Refusal
