import BoxLayout.Window
import BoxLayout.Constraints.AspectRatio
import BoxLayout.Session
import BoxLayout.Proofs.Conditions
import BoxLayout.Proofs.Outcome
import BoxLayout.Proofs.Queries
import BoxLayout.Proofs.Children
import BoxLayout.Proofs.Offers
import BoxLayout.Proofs.Runs
import BoxLayout.Proofs.Faults
import BoxLayout.Proofs.Answers
import BoxLayout.Proofs.Needs
import BoxLayout.Proofs.Fits
import BoxLayout.Proofs.StackFits
import BoxLayout.Proofs.Placing
import BoxLayout.Proofs.Packing
import BoxLayout.Proofs.Cells
import BoxLayout.Proofs.Enough
import BoxLayout.Proofs.Agree
import BoxLayout.Proofs.Caches
import BoxLayout.Proofs.Remeasure
import BoxLayout.Proofs.Replace
import BoxLayout.Proofs.History
import BoxLayout.Proofs.Writes
import BoxLayout.Proofs.Shift
import BoxLayout.Proofs.Free
import BoxLayout.Proofs.Natural
import BoxLayout.Proofs.Arrange
import BoxLayout.Proofs.Preorder
import BoxLayout.Proofs.PlacedOnce
import BoxLayout.Proofs.Erase.Basic
import BoxLayout.Proofs.Lines
import BoxLayout.Proofs.Erase.Measure
import BoxLayout.Proofs.Erase.Place
import BoxLayout.Proofs.Asked
import BoxLayout.Proofs.Trace
import BoxLayout.Proofs.Repeats
import BoxLayout.Proofs.Collapsed
import BoxLayout.Proofs.Overrun
import BoxLayout.Proofs.Sharing
import BoxLayout.Proofs.Shares
import BoxLayout.Proofs.Spans
import BoxLayout.Proofs.Spacing
import BoxLayout.Proofs.Slices
import BoxLayout.Proofs.Tiling
import BoxLayout.Proofs.HeightForWidth
import BoxLayout.Proofs.Transpose.Basic
import BoxLayout.Proofs.Transpose.Grid
import BoxLayout.Proofs.Transpose.Node
import BoxLayout.Proofs.Transpose.Measure
import BoxLayout.Proofs.Transpose.Place
import BoxLayout.Proofs.Extents
import BoxLayout.Proofs.Stretched
import BoxLayout.Proofs.Text.LongestWord
import BoxLayout.Proofs.NestedPaddings
import BoxLayout.Proofs.Signs
import BoxLayout.Proofs.ChildOrder
import BoxLayout.Proofs.Store
import BoxLayout.Proofs.Readback
import BoxLayout.Proofs.Aligned
import BoxLayout.Proofs.Unbounded
