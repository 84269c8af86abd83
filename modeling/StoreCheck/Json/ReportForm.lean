import StoreCheck.Json.Record
import StoreCheck.Verification.Report

/-!
# Reports in JSON
-/

namespace StoreCheck

def TheoryStats.toJson (s : TheoryStats) : Json :=
  .obj [("sorts", .nat s.sorts), ("predicates", .nat s.predicates), ("functions", .nat s.functions),
    ("axioms", .nat s.axioms), ("conjectures", .nat s.conjectures), ("formula_nodes", .nat s.formulaNodes)]

def Outcome.toJson : Outcome → Json
  | .verdict v => .obj [("status", .str "verdict"), ("detail", .str v.text)]
  | .trivial => .obj [("status", .str "trivial")]
  | .error message => .obj [("status", .str "error"), ("detail", .str message)]

def GoalReport.toJson (g : GoalReport) : Json :=
  .obj [("action", .str g.action), ("invariant", .str g.invariant), ("outcome", g.outcome.toJson),
    ("prover", Json.ofText? g.prover), ("stats", (g.stats.map (·.toJson)).getD .null),
    ("translation_ms", .nat g.encodingMillis), ("solving_ms", .nat g.solvingMillis)]

def Report.toJson (r : Report) : Json := .obj [("goals", .arr (r.goals.map (·.toJson)))]

def Summary.toJson (s : Summary) : Json :=
  .obj [("correct", .nat s.correct), ("incorrect", .nat s.incorrect), ("inconclusive", .nat s.inconclusive),
    ("errors", .nat s.errors)]

end StoreCheck
