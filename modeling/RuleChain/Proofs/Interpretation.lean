import RuleChain.Proofs.Written

/-! # The meaning of a written ruleset

  What a ruleset says to do with a packet, with chains looked up by name and rules taken in the
  order in which they are written. No table, id, stack or budget takes part.

  `Ruleset.Compiled` relates a ruleset to the chains that are built from it. Whatever the ids and
  handles are, the chains then mean what the ruleset says (`Ruleset.Compiled.answers_iff`).
-/

namespace RuleChain

/-! ### Interpretation -/

/-- What a rule says about a packet and the data registers. -/
def RuleSpec.run? (packet : Packet) (data : Data) (rule : RuleSpec) :
    Option (NamedVerdict × Data) :=
  ExprSpec.runAll? packet data rule.exprs

namespace Ruleset

/-- The chain with a name. -/
def chain? (r : Ruleset) (name : String) : Option ChainSpec := r.chains.find? (·.name = name)

/-- Processes written rules, from some data to other data, with a number of visits. -/
inductive Processes (r : Ruleset) (packet : Packet) :
    List RuleSpec → Data → PlainMap.Outcome → Data → Nat → Prop where
  | finish {data : Data} : r.Processes packet [] data .finished data 0
  | mismatch {rule : RuleSpec} {rest : List RuleSpec} {data data' data'' : Data}
    {o : PlainMap.Outcome} {n : Nat} (run : rule.run? packet data = some (.mismatch, data'))
    (goes : r.Processes packet rest data' o data'' n) :
    r.Processes packet (rule :: rest) data o data'' (n + 1)
  | proceed {rule : RuleSpec} {rest : List RuleSpec} {data data' data'' : Data}
    {o : PlainMap.Outcome} {n : Nat} (run : rule.run? packet data = some (.proceed, data'))
    (goes : r.Processes packet rest data' o data'' n) :
    r.Processes packet (rule :: rest) data o data'' (n + 1)
  | final {rule : RuleSpec} {rest : List RuleSpec} {data data' : Data} {d : Disposition}
    (run : rule.run? packet data = some (.final d, data')) :
    r.Processes packet (rule :: rest) data (.decided d) data' 1
  | leave {rule : RuleSpec} {rest : List RuleSpec} {data data' : Data}
    (run : rule.run? packet data = some (.leave, data')) :
    r.Processes packet (rule :: rest) data .finished data' 1
  /-- The chain named is finished, and the rule after the jump follows. -/
  | jump {rule : RuleSpec} {rest : List RuleSpec} {target : String} {spec : ChainSpec}
    {data data' data'' data''' : Data} {o : PlainMap.Outcome} {n m : Nat}
    (run : rule.run? packet data = some (.jump target, data'))
    (found : r.chain? target = some spec)
    (called : r.Processes packet spec.rules data' .finished data'' n)
    (goes : r.Processes packet rest data'' o data''' m) :
    r.Processes packet (rule :: rest) data o data''' (n + m + 1)
  /-- The chain named gives a disposition. -/
  | jumpDecided {rule : RuleSpec} {rest : List RuleSpec} {target : String} {spec : ChainSpec}
    {data data' data'' : Data} {d : Disposition} {n : Nat}
    (run : rule.run? packet data = some (.jump target, data'))
    (found : r.chain? target = some spec)
    (called : r.Processes packet spec.rules data' (.decided d) data'' n) :
    r.Processes packet (rule :: rest) data (.decided d) data'' (n + 1)
  /-- The chain named is processed in place of the rules that are left. -/
  | goto {rule : RuleSpec} {rest : List RuleSpec} {target : String} {spec : ChainSpec}
    {data data' data'' : Data} {o : PlainMap.Outcome} {n : Nat}
    (run : rule.run? packet data = some (.goto target, data'))
    (found : r.chain? target = some spec)
    (taken : r.Processes packet spec.rules data' o data'' n) :
    r.Processes packet (rule :: rest) data o data'' (n + 1)

/-- What a chain with a policy answers to a packet, and the number of rules visited. -/
inductive Answers (r : Ruleset) (packet : Packet) (spec : ChainSpec) :
    Policy → Disposition → Nat → Prop where
  | rule {policy : Policy} {d : Disposition} {data : Data} {n : Nat}
    (decided : r.Processes packet spec.rules (.replicate _ 0) (.decided d) data n) :
    r.Answers packet spec policy d n
  | accept {data : Data} {n : Nat}
    (finished : r.Processes packet spec.rules (.replicate _ 0) .finished data n) :
    r.Answers packet spec .accept .accept n
  | drop {data : Data} {n : Nat}
    (finished : r.Processes packet spec.rules (.replicate _ 0) .finished data n) :
    r.Answers packet spec .drop .drop n

end Ruleset

/-! ### Built chains -/

/-- A rule of a table that has the expressions of a written one. -/
def RuleSpec.Compiled (ids : String → Option ChainId) (spec : RuleSpec)
    (rule : Nat × List Expr) : Prop :=
  spec.exprs.mapM (ExprSpec.toExpr ids) = .ok rule.2

/-- A chain of a table that has the name, the policy and the rules of a written one. -/
structure ChainSpec.Compiled (ids : String → Option ChainId) (spec : ChainSpec)
    (chain : PlainChain) : Prop where
  name : chain.name = spec.name
  policy : chain.policy = spec.policy
  rules : List.Forall₂ (RuleSpec.Compiled ids) spec.rules chain.rules

/-- Every name leads to the chain that has the written rules of this name. -/
def Ruleset.Compiled (r : Ruleset) (ids : String → Option ChainId) (p : PlainMap) : Prop :=
  ∀ {name : String} {id : ChainId}, ids name = some id →
    ∃ spec chain, r.chain? name = some spec ∧ p id = some chain ∧ spec.Compiled ids chain

/-! ### One rule -/

theorem Expr.Runs.unique {packet : Packet} {exprs : List Expr} {data data' data'' : Data}
    {v v' : Verdict} (h : Expr.Runs packet exprs data v data')
    (h' : Expr.Runs packet exprs data v' data'') : v' = v ∧ data'' = data' := by
  have heq := (Expr.runs_iff.mp h).symm.trans (Expr.runs_iff.mp h')
  cases heq
  exact ⟨rfl, rfl⟩

namespace RuleSpec.Compiled

variable {ids : String → Option ChainId} {spec : RuleSpec} {rule : Nat × List Expr}
  {packet : Packet} {data data' : Data}

theorem runs (h : spec.Compiled ids rule) {named : NamedVerdict}
    (hrun : spec.run? packet data = some (named, data')) :
    ∃ v, named.resolve? ids = some v ∧ Expr.Runs packet rule.2 data v data' := by
  obtain ⟨named', data'', v, hrun', hv, hruns⟩ := ExprSpec.runAll?_of_mapM h packet data
  cases hrun.symm.trans hrun'
  exact ⟨v, hv, hruns⟩

theorem written (h : spec.Compiled ids rule) {v : Verdict}
    (hruns : Expr.Runs packet rule.2 data v data') :
    ∃ named, spec.run? packet data = some (named, data') ∧ named.resolve? ids = some v := by
  obtain ⟨named, data'', v', hrun, hv, hruns'⟩ := ExprSpec.runAll?_of_mapM h packet data
  obtain ⟨rfl, rfl⟩ := hruns.unique hruns'
  exact ⟨named, hrun, hv⟩

end RuleSpec.Compiled

/-! ### Chains mean what is written -/

namespace Ruleset.Compiled

variable {r : Ruleset} {ids : String → Option ChainId} {p : PlainMap} {packet : Packet}
  {specs : List RuleSpec} {rules : List (Nat × List Expr)} {data data' : Data}
  {o : PlainMap.Outcome} {n : Nat}

/-- The chain that a name leads to has the rules of the chain that is looked up. -/
theorem target (h : r.Compiled ids p) {name : String} {id : ChainId} {spec : ChainSpec}
    (hid : ids name = some id) (hfound : r.chain? name = some spec) :
    List.Forall₂ (RuleSpec.Compiled ids) spec.rules (p.rules id) := by
  obtain ⟨spec', chain, hfound', hchain, hcompiled⟩ := h hid
  cases hfound.symm.trans hfound'
  rw [PlainMap.rules, hchain]
  exact hcompiled.rules

theorem spec (h : r.Compiled ids p) {name : String} {id : ChainId} (hid : ids name = some id) :
    ∃ spec, r.chain? name = some spec ∧
      List.Forall₂ (RuleSpec.Compiled ids) spec.rules (p.rules id) := by
  obtain ⟨spec, -, hfound, -, -⟩ := h hid
  exact ⟨spec, hfound, h.target hid hfound⟩

theorem of_processes (h : r.Compiled ids p)
    (hprocesses : r.Processes packet specs data o data' n)
    (hrules : List.Forall₂ (RuleSpec.Compiled ids) specs rules) :
    p.Processes packet rules data o data' n := by
  induction hprocesses generalizing rules with
  | finish =>
    cases hrules
    exact .finish
  | mismatch run _ ih =>
    cases hrules with
    | cons hrule hrest =>
      obtain ⟨v, hv, hruns⟩ := hrule.runs run
      cases hv
      exact .mismatch hruns (ih hrest)
  | proceed run _ ih =>
    cases hrules with
    | cons hrule hrest =>
      obtain ⟨v, hv, hruns⟩ := hrule.runs run
      cases hv
      exact .proceed hruns (ih hrest)
  | final run =>
    cases hrules with
    | cons hrule hrest =>
      obtain ⟨v, hv, hruns⟩ := hrule.runs run
      cases hv
      exact .final hruns
  | leave run =>
    cases hrules with
    | cons hrule hrest =>
      obtain ⟨v, hv, hruns⟩ := hrule.runs run
      cases hv
      exact .leave hruns
  | jump run found _ _ ihCalled ihGoes =>
    cases hrules with
    | cons hrule hrest =>
      obtain ⟨v, hv, hruns⟩ := hrule.runs run
      obtain ⟨id, hid, rfl⟩ := Option.map_eq_some_iff.mp hv
      exact .jump hruns (ihCalled (h.target hid found)) (ihGoes hrest)
  | jumpDecided run found _ ihCalled =>
    cases hrules with
    | cons hrule hrest =>
      obtain ⟨v, hv, hruns⟩ := hrule.runs run
      obtain ⟨id, hid, rfl⟩ := Option.map_eq_some_iff.mp hv
      exact .jumpDecided hruns (ihCalled (h.target hid found))
  | goto run found _ ihTaken =>
    cases hrules with
    | cons hrule hrest =>
      obtain ⟨v, hv, hruns⟩ := hrule.runs run
      obtain ⟨id, hid, rfl⟩ := Option.map_eq_some_iff.mp hv
      exact .goto hruns (ihTaken (h.target hid found))

theorem processes (h : r.Compiled ids p) (hprocesses : p.Processes packet rules data o data' n)
    (hrules : List.Forall₂ (RuleSpec.Compiled ids) specs rules) :
    r.Processes packet specs data o data' n := by
  induction hprocesses generalizing specs with
  | finish =>
    cases hrules
    exact .finish
  | mismatch runs _ ih =>
    cases hrules with
    | cons hrule hrest =>
      obtain ⟨named, hrun, hv⟩ := hrule.written runs
      obtain rfl : named = .mismatch := NamedVerdict.of_resolve? hv
      exact .mismatch hrun (ih hrest)
  | proceed runs _ ih =>
    cases hrules with
    | cons hrule hrest =>
      obtain ⟨named, hrun, hv⟩ := hrule.written runs
      obtain rfl : named = .proceed := NamedVerdict.of_resolve? hv
      exact .proceed hrun (ih hrest)
  | final runs =>
    cases hrules with
    | cons hrule hrest =>
      obtain ⟨named, hrun, hv⟩ := hrule.written runs
      obtain rfl : named = .final _ := NamedVerdict.of_resolve? hv
      exact .final hrun
  | leave runs =>
    cases hrules with
    | cons hrule hrest =>
      obtain ⟨named, hrun, hv⟩ := hrule.written runs
      obtain rfl : named = .leave := NamedVerdict.of_resolve? hv
      exact .leave hrun
  | jump runs _ _ ihCalled ihGoes =>
    cases hrules with
    | cons hrule hrest =>
      obtain ⟨named, hrun, hv⟩ := hrule.written runs
      obtain ⟨target, rfl, hid⟩ := NamedVerdict.of_resolve? hv
      obtain ⟨spec, hfound, hspec⟩ := h.spec hid
      exact .jump hrun hfound (ihCalled hspec) (ihGoes hrest)
  | jumpDecided runs _ ihCalled =>
    cases hrules with
    | cons hrule hrest =>
      obtain ⟨named, hrun, hv⟩ := hrule.written runs
      obtain ⟨target, rfl, hid⟩ := NamedVerdict.of_resolve? hv
      obtain ⟨spec, hfound, hspec⟩ := h.spec hid
      exact .jumpDecided hrun hfound (ihCalled hspec)
  | goto runs _ ihTaken =>
    cases hrules with
    | cons hrule hrest =>
      obtain ⟨named, hrun, hv⟩ := hrule.written runs
      obtain ⟨target, rfl, hid⟩ := NamedVerdict.of_resolve? hv
      obtain ⟨spec, hfound, hspec⟩ := h.spec hid
      exact .goto hrun hfound (ihTaken hspec)

/-- A chain gives the answer that is written. -/
theorem answers_iff (h : r.Compiled ids p) {name : String} {id : ChainId} {spec : ChainSpec}
    (hid : ids name = some id) (hfound : r.chain? name = some spec) {policy : Policy}
    {d : Disposition} :
    r.Answers packet spec policy d n ↔ p.Answers packet id policy d n := by
  have hrules := h.target hid hfound
  constructor
  · intro hanswer
    cases hanswer with
    | rule decided => exact .rule (h.of_processes decided hrules)
    | accept finished => exact .accept (h.of_processes finished hrules)
    | drop finished => exact .drop (h.of_processes finished hrules)
  · intro hanswer
    cases hanswer with
    | rule decided => exact .rule (h.processes decided hrules)
    | accept finished => exact .accept (h.processes finished hrules)
    | drop finished => exact .drop (h.processes finished hrules)

end Ruleset.Compiled

end RuleChain
