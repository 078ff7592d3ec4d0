import Lineage.Text.Place
import Lineage.Text.Capital
import Lineage.Text.Printable
import Lineage.Text.PlainNumeral
import Lineage.Encoding.Basic
import Lineage.Json.Printer
import Lineage.Json.Literal
import Lineage.Csv
import Lineage.Fault
import Lineage.Range
import Lineage.Change.Net
import Lineage.Translation
import Lineage.Matcher
import Lineage.Export
import Lineage.Settings
import Lineage.Text.Measure
import Lineage.Proofs.Tracking.Histories
import Lineage.Proofs.Position.Lookups
import Lineage.Proofs.Change.Diffing
import Lineage.Proofs.Change.Netting
import Lineage.Proofs.Matching.Sparing
import Lineage.Proofs.Matching.Relevance
import Lineage.Proofs.Matching.Succeeding
import Lineage.Proofs.Tracking.Sessions
import Lineage.Proofs.Text.Splitting
import Lineage.Proofs.Matching.Linking
import Lineage.Proofs.Matching.Tabs
import Lineage.Proofs.Tracking.Regressions
import Lineage.Proofs.Archive.Deeds
import Lineage.Proofs.Archive.Twins
import Lineage.Proofs.Export.Tables
import Lineage.Proofs.Change.Totals
import Lineage.Proofs.Tracking.Differing
import Lineage.Proofs.Translation.Bounding
import Lineage.Proofs.Translation.Closing
import Lineage.Proofs.Range.Covering
import Lineage.Proofs.Range.Reading
import Lineage.Proofs.Matching.Signing
import Lineage.Proofs.Position.Comparing
import Lineage.Proofs.Layout.Hunkwise
