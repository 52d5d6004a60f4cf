import Tiling.Drag
import Tiling.Saved.State
import Tiling.State.InPlace
import Tiling.State.Step
import Tiling.Proofs.Uniqueness
import Tiling.Proofs.Atomic
import Tiling.Proofs.DropAxis
import Tiling.Proofs.DropOrder
import Tiling.Proofs.Gesture
import Tiling.Proofs.Generation
import Tiling.Proofs.SwapLayout
import Tiling.Proofs.SizeBlind
import Tiling.Proofs.Closing
import Tiling.Proofs.Groups
import Tiling.Proofs.Saving
import Tiling.Proofs.Abandoned
import Tiling.Proofs.Rebalancing
import Tiling.Proofs.Arrival
import Tiling.Proofs.Undo
import Tiling.Proofs.Suppression
import Tiling.Proofs.FanOut
import Tiling.Proofs.Revealing
import Tiling.Proofs.Acceptance
import Tiling.Proofs.Resizing
import Tiling.Proofs.HoverHistory
import Tiling.Proofs.Newcomers
import Tiling.Proofs.ZoneEdges
import Tiling.Proofs.ProperRectangles
import Tiling.Proofs.Minting
import Tiling.Proofs.Positions
import Tiling.Proofs.Pairs
import Tiling.Proofs.Loading
