import Chordboard.Delivery
import Chordboard.Engine.Run
import Chordboard.Engine.Scanned
import Chordboard.Engine.Session
import Chordboard.PollLoop
import Chordboard.PollLoop.Run
import Chordboard.Simulation.Bench
import Chordboard.Simulation.Board
import Chordboard.Proofs.Dictionary.Layout
import Chordboard.Proofs.Dictionary.RoundTrip
import Chordboard.Proofs.Dictionary.PackedBuffers
import Chordboard.Proofs.Engine.Outcomes
import Chordboard.Proofs.Engine.Ticks
import Chordboard.Proofs.Chord.Anagrams
import Chordboard.Proofs.Delivery.Ledger
import Chordboard.Proofs.Engine.LastWord
import Chordboard.Proofs.Engine.ChordDelivery
import Chordboard.Proofs.Engine.StablePress
import Chordboard.Proofs.Engine.Bounces
import Chordboard.Proofs.Engine.NewPress
import Chordboard.Proofs.Engine.StuckKeys
import Chordboard.Proofs.Engine.WordReplacement
import Chordboard.Proofs.Delivery.Losses
import Chordboard.Proofs.Engine.Erasure
import Chordboard.Proofs.Engine.StickyMods
import Chordboard.Proofs.Engine.PendingPress
import Chordboard.Proofs.Engine.StickyHistory
import Chordboard.Proofs.Engine.Gaming
import Chordboard.Proofs.Delivery.Room
import Chordboard.Proofs.Engine.QueueRoom
import Chordboard.Proofs.Strict.Runs
import Chordboard.Proofs.Switches.LaterTimers
import Chordboard.Proofs.Engine.TimeTranslation
import Chordboard.Proofs.Scanner.ScannedBoards
import Chordboard.Proofs.Scanner.BenchScans
import Chordboard.Proofs.PollLoop.ExitRequests
import Chordboard.Proofs.Chord.Conservation
import Chordboard.Proofs.Engine.AnagramTour
import Chordboard.Proofs.Engine.WordToggles
import Chordboard.Proofs.Engine.CapitalLetters
import Chordboard.Proofs.Dictionary.BitStrings
import Chordboard.Proofs.Dictionary.PackedSequences
import Chordboard.Proofs.Dictionary.RecordGrammar
import Chordboard.Proofs.Dictionary.Lookups
import Chordboard.Proofs.Settings.WordStreams
import Chordboard.Proofs.Engine.ReleaseBatches
import Chordboard.Proofs.Engine.DoubleTaps
import Chordboard.Proofs.Engine.QuickTaps
import Chordboard.Proofs.Chord.PressedAnagrams
import Chordboard.Proofs.Chord.ExtractionOrder
import Chordboard.Proofs.Engine.NextChord
import Chordboard.Proofs.Timer.OneShot
import Chordboard.Proofs.Switches.NumberedRuns
