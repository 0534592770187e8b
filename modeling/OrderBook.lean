import OrderBook.Index.FiniteMap
import OrderBook.Book.Conservation
import OrderBook.Book.Reconstruction
import OrderBook.Book.Wrapping
import OrderBook.Book.Ghost
import OrderBook.Replay.Analyse
import OrderBook.Replay.RoundTrip
import OrderBook.Replay.Files
import OrderBook.Replay.SyntheticStream
import OrderBook.Replay.SyntheticBook
import OrderBook.Levels.Lookups
import OrderBook.Index.Frame
import OrderBook.Index.ProbeBounds
import OrderBook.Book.Reductions
import OrderBook.Replay.Malformed
import OrderBook.Bench.Percentiles
import OrderBook.Bench.RunVariant
import OrderBook.Bench.Sweep
import OrderBook.Bench.SweepTargets
import OrderBook.Bench.SweepReads
import OrderBook.Book.Close
import OrderBook.Book.Overstates
import OrderBook.Book.Posted
import OrderBook.Book.Relabelling
import OrderBook.Book.Release
import OrderBook.Book.Ledger
import OrderBook.Book.Interleaving
import OrderBook.Tests.BookEquivalence
import OrderBook.Tests.AgainstLobster
import OrderBook.Tests.LobsterReference
