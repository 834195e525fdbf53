import EditOverlay.Codec
import EditOverlay.Command.Session
import EditOverlay.Directory.Openings
import EditOverlay.Dump
import EditOverlay.Main
import EditOverlay.Proofs.Codec.Streams
import EditOverlay.Proofs.Command.Frame
import EditOverlay.Proofs.Command.Preview
import EditOverlay.Proofs.Command.Spec
import EditOverlay.Proofs.Directory.Openings
import EditOverlay.Proofs.Editor.Limits
import EditOverlay.Proofs.Editor.Origins
import EditOverlay.Proofs.Editor.Reading
import EditOverlay.Proofs.History
import EditOverlay.Proofs.Overlay.Drain
import EditOverlay.Proofs.Overlay.Window
import EditOverlay.Proofs.Text.Lines
import EditOverlay.Proofs.Text.Number
import EditOverlay.Store.Faulty
import EditOverlay.Store.File
import EditOverlay.Store.Memory
import EditOverlay.Store.Pattern
import EditOverlay.Summary
import EditOverlay.Text.Blank
import EditOverlay.Text.Cut
import EditOverlay.Text.Quoted
import EditOverlay.Width.Json
import EditOverlay.Proofs.Dump.Rows
import EditOverlay.Proofs.Dump.View
import EditOverlay.Proofs.Dump.Runs
import EditOverlay.Proofs.Overlay.Statistics
import EditOverlay.Proofs.Overlay.Loss
import EditOverlay.Proofs.Overlay.ShortReads
import EditOverlay.Proofs.Overlay.Foreign
import EditOverlay.Proofs.Dump.Words
import EditOverlay.Proofs.Command.Faults
