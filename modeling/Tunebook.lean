import Tunebook.Main
import Tunebook.Server.Protocol
import Tunebook.Proofs.Conservation
import Tunebook.Proofs.Scan.Pieces
import Tunebook.Proofs.Scan.Placement
import Tunebook.Proofs.Lossless
import Tunebook.Proofs.Relabelling.Grammar
import Tunebook.Proofs.Relabelling.Tune
import Tunebook.Proofs.Anchoring
import Tunebook.Proofs.Openings
import Tunebook.Proofs.Containment
import Tunebook.Proofs.Scan.Longest
import Tunebook.Proofs.Scan.Lookahead
import Tunebook.Proofs.Rhythm.Length
import Tunebook.Proofs.Rhythm.Rescaling
import Tunebook.Proofs.Grammar.Notes
import Tunebook.Proofs.Grammar.Groups
import Tunebook.Proofs.Rhythm.Rereading
import Tunebook.Proofs.Rhythm.Items
import Tunebook.Proofs.Grammar.Lines
import Tunebook.Proofs.Rhythm.Tunes
import Tunebook.Proofs.Scan.Recognition
import Tunebook.Proofs.Scan.Cut
import Tunebook.Proofs.Rhythm.Recutting
import Tunebook.Proofs.Rhythm.Rescanning
import Tunebook.Proofs.Rhythm.Splicing
import Tunebook.Proofs.Rhythm.Voices
import Tunebook.Proofs.Rhythm.Preservation
import Tunebook.Proofs.Rhythm.Writing
import Tunebook.Proofs.Rhythm.Spelling
import Tunebook.Proofs.Rhythm.WholeLine
import Tunebook.Proofs.Rhythm.RoundTrip
import Tunebook.Proofs.Reporting
import Tunebook.Proofs.Covering
import Tunebook.Proofs.Highlighting
import Tunebook.Proofs.Rhythm.Editing
import Tunebook.Proofs.Workspace.Session
import Tunebook.Proofs.Server.Publishing
import Tunebook.Proofs.Scan.LineFeeds
import Tunebook.Proofs.Decoding
import Tunebook.Proofs.WellFormed
import Tunebook.Proofs.Grammar.Blocks
import Tunebook.Proofs.Scan.Lines
import Tunebook.Proofs.Rows
import Tunebook.Proofs.Paragraphs
import Tunebook.Proofs.Sections
import Tunebook.Proofs.Text.Returning
import Tunebook.Proofs.Server.Landing
import Tunebook.Proofs.Edges
import Tunebook.Proofs.Ranges
import Tunebook.Proofs.Rhythm.Sounds
import Tunebook.Proofs.Rhythm.Cursor
import Tunebook.Proofs.Boundaries
import Tunebook.Proofs.Slurs
import Tunebook.Proofs.Leaves
import Tunebook.Proofs.Fields
import Tunebook.Proofs.InfoLines
import Tunebook.Proofs.Contents
import Tunebook.Proofs.Completing
import Tunebook.Proofs.Beam.Stretches
import Tunebook.Proofs.Beam.Listing
import Tunebook.Proofs.Text.Ordering
import Tunebook.Proofs.Scan.Resuming
import Tunebook.Proofs.Rhythm.Arithmetic
import Tunebook.Proofs.Text.Places
import Tunebook.Proofs.Rhythm.Selecting
import Tunebook.Proofs.Rhythm.Heads
import Tunebook.Proofs.Rhythm.ReadingBack
import Tunebook.Proofs.Descent.Progress
