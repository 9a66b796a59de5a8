import TagTable.Keys.Custom
import TagTable.Proofs.Keys.Polynomial
import TagTable.Proofs.Keys.Separation
import TagTable.Proofs.Map.Clearing
import TagTable.Proofs.Map.Dictionary
import TagTable.Proofs.Map.HashIndependence
import TagTable.Proofs.Map.Lawful
import TagTable.Proofs.Map.LookupCost
import TagTable.Proofs.Map.Refinement
import TagTable.Proofs.Map.Represents
import TagTable.Proofs.Map.Selection
import TagTable.Proofs.Memory.Alignment
import TagTable.Proofs.Memory.Geometry
import TagTable.Proofs.Memory.Parts
import TagTable.Proofs.Memory.Tightness
import TagTable.Proofs.Run.Accounting
import TagTable.Proofs.Run.Agreement
import TagTable.Proofs.Run.Amortised
import TagTable.Proofs.Run.Building
import TagTable.Proofs.Run.Churn
import TagTable.Proofs.Run.Command
import TagTable.Proofs.Run.Destination
import TagTable.Proofs.Run.Failure
import TagTable.Proofs.Run.Family
import TagTable.Proofs.Run.Fresh
import TagTable.Proofs.Run.Insertion
import TagTable.Proofs.Run.Ledger
import TagTable.Proofs.Run.Promise
import TagTable.Proofs.Run.Reachable
import TagTable.Proofs.Run.Reading
import TagTable.Proofs.Run.Rehash
import TagTable.Proofs.Run.Requests
import TagTable.Proofs.Run.Shape
import TagTable.Proofs.Run.Stability
import TagTable.Proofs.Run.Statistics
import TagTable.Proofs.Run.Tour
import TagTable.Proofs.Slots.Enumeration
import TagTable.Proofs.Slots.Scan
import TagTable.Proofs.Table.Arrangement
import TagTable.Proofs.Table.Burial
import TagTable.Proofs.Table.Comparisons
import TagTable.Proofs.Table.Cursor
import TagTable.Proofs.Table.CursorAgreement
import TagTable.Proofs.Table.Histogram
import TagTable.Proofs.Table.InPlace
import TagTable.Proofs.Table.Invariant
import TagTable.Proofs.Table.Iteration
import TagTable.Proofs.Table.Occupancy
import TagTable.Proofs.Table.Parking
import TagTable.Proofs.Table.ProbeLength
import TagTable.Proofs.Table.Recording
import TagTable.Proofs.Table.Reservation
import TagTable.Proofs.Table.Row
import TagTable.Proofs.Table.Search
import TagTable.Proofs.Table.Skipping
import TagTable.Proofs.Table.SlotOrder
import TagTable.Proofs.Table.Stale
import TagTable.Proofs.Table.Traversal
import TagTable.Proofs.Table.Update
import TagTable.Proofs.Table.Visits
import TagTable.Proofs.Table.Walk
import TagTable.Proofs.Typed.Alignment
import TagTable.Proofs.Typed.Command
import TagTable.Proofs.Typed.Encoding
import TagTable.Proofs.Typed.FiniteMap
import TagTable.Proofs.Typed.FromLists
import TagTable.Proofs.Typed.Refinement
import TagTable.Proofs.Typed.Skipping
import TagTable.Table.Debug
import TagTable.Table.ProbeLength
import TagTable.Table.Stats
import TagTable.Typed.Compound
import TagTable.Typed.MapCursor
