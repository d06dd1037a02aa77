import Spool.Decimal.Grouped
import Spool.Report.Progress
import Spool.Report.Size

/-!
What an upload prints: a header before it starts and a summary when it is over. A page is a list of
lines.
-/

namespace Spool.Report

def programName : String := "upload-spool"

def version : String := "0.1.0"

def rule : String := String.ofList (List.replicate 50 '─')

def row (name value : String) : String := s!"  {name}: {value}"

def header (destination : String) (workers capacity : Nat) : List String :=
  ["", s!"{programName} {version}", rule, row "Upstream" destination,
    row "Workers" (toString workers), row "Queue" (toString capacity), ""]

/-- Time to a tenth of a second, and the rate in whole files. -/
def pace (p : Progress) : String :=
  let seconds := (Fraction.ofFloat p.elapsed.toFloat).fixed 1
  let rate := (Fraction.ofFloat p.filesPerSecond).fixed 0
  s!"{seconds}s ({rate} files/sec)"

/-- Failures are shown if there are any. -/
def summary (p : Progress) (interrupted : Bool) : List String :=
  let title := if interrupted then "Upload Interrupted" else "Upload Complete"
  let failures := if p.failed = 0 then [] else [row "Failed" (Decimal.grouped p.failed)]
  ["", title, rule, row "Files" (Decimal.grouped p.completed),
    row "Total Size" (Size.text p.bytes), row "Duration" (pace p)] ++ failures ++ [""]

def text (page : List String) : String :=
  String.join (page.map (· ++ "\n"))

end Spool.Report
