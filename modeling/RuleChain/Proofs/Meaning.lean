import RuleChain.Proofs.Safety

/-! # The meaning of a ruleset

  What a ruleset does to a packet, without a place, a stack or a budget: a chain is processed rule
  by rule, and a jump or a goto processes another chain in between or instead.

  - `Expr.Runs` runs the expressions of a rule.
  - `PlainMap.Processes` processes rules until a disposition is given or the chain is finished.
  - `PlainMap.Answers` adds the policy of the base chain.

  A walk finds this meaning (`Journey.Safe.walk_eq`). At each of its places the stack stands for
  the chains that are to be gone on with, which `PlainMap.Resumes` describes.
-/

namespace RuleChain

/-! ### Reference -/

/-- The contents of the data registers. -/
abbrev Data := Vector UInt8 Registers.byteCount

/-- Runs expressions from left to right until one of them writes a verdict. -/
inductive Expr.Runs (packet : Packet) : List Expr → Data → Verdict → Data → Prop where
  | finish {data : Data} : Runs packet [] data .proceed data
  | next {e : Expr} {rest : List Expr} {data data' data'' : Data} {v : Verdict}
    (goes : e.eval ⟨.proceed, data⟩ packet = ⟨.proceed, data'⟩)
    (runs : Runs packet rest data' v data'') : Runs packet (e :: rest) data v data''
  | stop {e : Expr} {rest : List Expr} {data data' : Data} {v : Verdict}
    (stops : e.eval ⟨.proceed, data⟩ packet = ⟨v, data'⟩) (ne : v ≠ .proceed) :
    Runs packet (e :: rest) data v data'

/-- How the processing of rules ends. -/
inductive PlainMap.Outcome where
  /-- A disposition ends everything. -/
  | decided (disposition : Disposition)
  /-- The chain is finished without one. -/
  | finished

/-- Processes rules, from some data to other data, with a number of visits. -/
inductive PlainMap.Processes (p : PlainMap) (packet : Packet) :
    List (Nat × List Expr) → Data → Outcome → Data → Nat → Prop where
  | finish {data : Data} : p.Processes packet [] data .finished data 0
  | mismatch {rule : Nat × List Expr} {rest : List (Nat × List Expr)} {data data' data'' : Data}
    {o : Outcome} {n : Nat} (runs : Expr.Runs packet rule.2 data .mismatch data')
    (goes : p.Processes packet rest data' o data'' n) :
    p.Processes packet (rule :: rest) data o data'' (n + 1)
  | proceed {rule : Nat × List Expr} {rest : List (Nat × List Expr)} {data data' data'' : Data}
    {o : Outcome} {n : Nat} (runs : Expr.Runs packet rule.2 data .proceed data')
    (goes : p.Processes packet rest data' o data'' n) :
    p.Processes packet (rule :: rest) data o data'' (n + 1)
  | final {rule : Nat × List Expr} {rest : List (Nat × List Expr)} {data data' : Data}
    {d : Disposition} (runs : Expr.Runs packet rule.2 data (.final d) data') :
    p.Processes packet (rule :: rest) data (.decided d) data' 1
  | leave {rule : Nat × List Expr} {rest : List (Nat × List Expr)} {data data' : Data}
    (runs : Expr.Runs packet rule.2 data .leave data') :
    p.Processes packet (rule :: rest) data .finished data' 1
  /-- The target is finished, and the rule after the jump follows. -/
  | jump {rule : Nat × List Expr} {rest : List (Nat × List Expr)} {target : ChainId}
    {data data' data'' data''' : Data} {o : Outcome} {n m : Nat}
    (runs : Expr.Runs packet rule.2 data (.jump target) data')
    (called : p.Processes packet (p.rules target) data' .finished data'' n)
    (goes : p.Processes packet rest data'' o data''' m) :
    p.Processes packet (rule :: rest) data o data''' (n + m + 1)
  /-- The target gives a disposition. -/
  | jumpDecided {rule : Nat × List Expr} {rest : List (Nat × List Expr)} {target : ChainId}
    {data data' data'' : Data} {d : Disposition} {n : Nat}
    (runs : Expr.Runs packet rule.2 data (.jump target) data')
    (called : p.Processes packet (p.rules target) data' (.decided d) data'' n) :
    p.Processes packet (rule :: rest) data (.decided d) data'' (n + 1)
  /-- The target is processed in place of the rules that are left. -/
  | goto {rule : Nat × List Expr} {rest : List (Nat × List Expr)} {target : ChainId}
    {data data' data'' : Data} {o : Outcome} {n : Nat}
    (runs : Expr.Runs packet rule.2 data (.goto target) data')
    (taken : p.Processes packet (p.rules target) data' o data'' n) :
    p.Processes packet (rule :: rest) data o data'' (n + 1)

/-- The answer of a base chain to a packet, and the number of rules visited. -/
inductive PlainMap.Answers (p : PlainMap) (packet : Packet) (base : ChainId) :
    Policy → Disposition → Nat → Prop where
  | rule {policy : Policy} {d : Disposition} {data : Data} {n : Nat}
    (decided : p.Processes packet (p.rules base) (.replicate _ 0) (.decided d) data n) :
    p.Answers packet base policy d n
  | accept {data : Data} {n : Nat}
    (finished : p.Processes packet (p.rules base) (.replicate _ 0) .finished data n) :
    p.Answers packet base .accept .accept n
  | drop {data : Data} {n : Nat}
    (finished : p.Processes packet (p.rules base) (.replicate _ 0) .finished data n) :
    p.Answers packet base .drop .drop n

/-! ### One rule -/

/-- The reference runs the expressions of a rule as an evaluation does. -/
theorem Expr.runs_iff {packet : Packet} {exprs : List Expr} {data data' : Data} {v : Verdict} :
    Expr.Runs packet exprs data v data' ↔
      Expr.evalAll exprs ⟨.proceed, data⟩ packet = ⟨v, data'⟩ := by
  induction exprs generalizing data with
  | nil =>
    constructor
    · intro h
      cases h
      rfl
    · intro h
      rw [Expr.evalAll_nil] at h
      cases h
      exact .finish
  | cons e rest ih =>
    rw [Expr.evalAll_cons]
    constructor
    · intro h
      cases h with
      | next goes runs =>
        -- no verdict is written, so the next expression runs on the data
        simp only [goes, if_true]
        exact ih.mp runs
      | stop stops ne => simp only [stops, if_neg ne]
    · intro h
      cases hstep : e.eval ⟨.proceed, data⟩ packet with
      | mk v' data₁ =>
        simp only [hstep] at h
        split at h
        · next hv =>
          subst hv
          exact .next hstep (ih.mpr h)
        · next hv =>
          cases h
          exact .stop hstep hv

/-- The expressions of a rule always come to a verdict. -/
theorem Expr.exists_runs (packet : Packet) (exprs : List Expr) (data : Data) :
    ∃ v data', Expr.Runs packet exprs data v data' := by
  cases h : Expr.evalAll exprs ⟨.proceed, data⟩ packet with
  | mk v data' => exact ⟨v, data', Expr.runs_iff.mpr h⟩

theorem Expr.Runs.target_mem {packet : Packet} {exprs : List Expr} {data data' : Data}
    {v : Verdict} (h : Expr.Runs packet exprs data v data') {target : ChainId × JumpKind}
    (htarget : v.target? = some target) : target ∈ exprs.filterMap Expr.target? := by
  have hverdict : (Expr.evalAll exprs ⟨.proceed, data⟩ packet).verdict.target? = some target := by
    rw [Expr.runs_iff.mp h]
    exact htarget
  exact Expr.target_mem_of_evalAll rfl hverdict

namespace PlainMap

variable {p : PlainMap} {packet : Packet} {base : ChainId} {policy : Policy}

/-! ### Every chain without a cycle below has a meaning -/

/-- The induction is on the jumps and gotos below the chain, and on its rules inside. -/
theorem exists_processes {id : ChainId} {depth : Nat} (h : p.edges.DepthLe id depth)
    {rules : List (Nat × List Expr)} (hrules : ∀ rule ∈ rules, rule ∈ p.rules id) (data : Data) :
    ∃ o data' n, p.Processes packet rules data o data' n := by
  induction h generalizing rules data with
  | @intro id depth room below ihTarget =>
    -- the targets have a meaning for all data, the rules that are left for the data of the first
    induction rules generalizing data with
    | nil => exact ⟨_, _, _, .finish⟩
    | cons rule rest ihRest =>
      have hrest : ∀ r ∈ rest, r ∈ p.rules id := fun r hr => hrules r (List.mem_cons_of_mem _ hr)
      obtain ⟨v, data', hruns⟩ := Expr.exists_runs packet rule.2 data
      have hcalled : ∀ target kind, v.target? = some (target, kind) →
          ∃ o data'' n, p.Processes packet (p.rules target) data' o data'' n := by
        intro target kind hv
        have hedge : (target, kind) ∈ p.edges id :=
          List.mem_flatMap.mpr ⟨rule, hrules rule List.mem_cons_self, hruns.target_mem hv⟩
        exact ihTarget target kind hedge (fun _ hr => hr) data'
      cases v with
      | mismatch =>
        obtain ⟨o, data'', n, hgoes⟩ := ihRest hrest data'
        exact ⟨_, _, _, .mismatch hruns hgoes⟩
      | proceed =>
        obtain ⟨o, data'', n, hgoes⟩ := ihRest hrest data'
        exact ⟨_, _, _, .proceed hruns hgoes⟩
      | final d => exact ⟨_, _, _, .final hruns⟩
      | leave => exact ⟨_, _, _, .leave hruns⟩
      | goto target =>
        obtain ⟨o, data'', n, htaken⟩ := hcalled target .goto rfl
        exact ⟨_, _, _, .goto hruns htaken⟩
      | jump target =>
        obtain ⟨o, data'', n, hcall⟩ := hcalled target .jump rfl
        cases o with
        | decided d => exact ⟨_, _, _, .jumpDecided hruns hcall⟩
        | finished =>
          obtain ⟨o, data''', m, hgoes⟩ := ihRest hrest data''
          exact ⟨_, _, _, .jump hruns hcall hgoes⟩

/-- So does every such base chain have an answer. -/
theorem exists_answers {depth : Nat} (h : p.edges.DepthLe base depth) (policy : Policy) :
    ∃ d n, p.Answers packet base policy d n := by
  obtain ⟨o, data', n, hprocess⟩ := exists_processes h (fun _ hrule => hrule) (.replicate _ 0)
  cases o with
  | decided d => exact ⟨_, _, .rule hprocess⟩
  | finished =>
    cases policy with
    | accept => exact ⟨_, _, .accept hprocess⟩
    | drop => exact ⟨_, _, .drop hprocess⟩

/-! ### Chains to go on with -/

/-- What follows when a chain has ended and the rules of others are to be gone on with. -/
inductive After (p : PlainMap) (packet : Packet) :
    Outcome → List (List (Nat × List Expr)) → Data → Ending → Nat → Prop where
  | decided {d : Disposition} {others : List (List (Nat × List Expr))} {data : Data} :
    p.After packet (.decided d) others data (.byRule d) 0
  | policy {data : Data} : p.After packet .finished [] data .byPolicy 0
  | back {rules : List (Nat × List Expr)} {others : List (List (Nat × List Expr))}
    {data data' : Data} {o : Outcome} {ending : Ending} {n m : Nat}
    (goes : p.Processes packet rules data o data' n) (after : p.After packet o others data' ending m) :
    p.After packet .finished (rules :: others) data ending (n + m)

/-- Rules are processed, and then the rules of the chains that are to be gone on with. -/
def Resumes (p : PlainMap) (packet : Packet) (rules : List (Nat × List Expr))
    (others : List (List (Nat × List Expr))) (data : Data) (ending : Ending) (n : Nat) : Prop :=
  ∃ o data' k m, p.Processes packet rules data o data' k ∧ p.After packet o others data' ending m ∧
    n = k + m

/-- What follows a rule with a verdict. -/
def Continues (p : PlainMap) (packet : Packet) (rest : List (Nat × List Expr))
    (others : List (List (Nat × List Expr))) (data : Data) (ending : Ending) (n : Nat) :
    Verdict → Prop
  | .mismatch => p.Resumes packet rest others data ending n
  | .proceed => p.Resumes packet rest others data ending n
  | .final d => ending = .byRule d ∧ n = 0
  | .leave => p.After packet .finished others data ending n
  | .jump target => p.Resumes packet (p.rules target) (rest :: others) data ending n
  | .goto target => p.Resumes packet (p.rules target) others data ending n

variable {rest : List (Nat × List Expr)} {others : List (List (Nat × List Expr))} {data : Data}
  {ending : Ending} {n : Nat}

theorem After.of_decided {d : Disposition} (h : p.After packet (.decided d) others data ending n) :
    ending = .byRule d ∧ n = 0 := by
  cases h
  exact ⟨rfl, rfl⟩

/-- The first rule is visited, and its verdict tells what follows. -/
theorem Resumes.visit {rule : Nat × List Expr}
    (h : p.Resumes packet (rule :: rest) others data ending n) :
    ∃ v data' m, Expr.Runs packet rule.2 data v data' ∧ n = m + 1 ∧
      p.Continues packet rest others data' ending m v := by
  -- the derivation ends with the rule of this verdict, and its parts make up what follows
  obtain ⟨o, data₁, k, m, hprocess, hafter, rfl⟩ := h
  cases hprocess with
  | @mismatch _ _ _ data' _ _ k runs goes =>
    exact ⟨_, data', k + m, runs, by omega, _, _, _, _, goes, hafter, rfl⟩
  | @proceed _ _ _ data' _ _ k runs goes =>
    exact ⟨_, data', k + m, runs, by omega, _, _, _, _, goes, hafter, rfl⟩
  | final runs =>
    obtain ⟨rfl, rfl⟩ := hafter.of_decided
    exact ⟨_, _, 0, runs, rfl, rfl, rfl⟩
  | leave runs => exact ⟨_, _, m, runs, by omega, hafter⟩
  | @jump _ _ _ _ data' _ _ _ k l runs called goes =>
    exact ⟨_, data', k + (l + m), runs, by omega, _, _, _, _, called, .back goes hafter, rfl⟩
  | @jumpDecided _ _ _ _ data' _ _ k runs called =>
    obtain ⟨rfl, rfl⟩ := hafter.of_decided
    exact ⟨_, data', k, runs, rfl, _, _, _, _, called, .decided, rfl⟩
  | @goto _ _ _ _ data' _ _ k runs taken =>
    exact ⟨_, data', k + m, runs, by omega, _, _, _, _, taken, hafter, rfl⟩

/-- A chain without rules left leads to what follows it. -/
theorem Resumes.of_nil (h : p.Resumes packet [] others data ending n) :
    p.After packet .finished others data ending n := by
  obtain ⟨o, data', k, m, hprocess, hafter, rfl⟩ := h
  cases hprocess
  rwa [Nat.zero_add]

/-- After a chain that is finished the rules saved last are gone on with. -/
theorem After.back_iff {rules : List (Nat × List Expr)} :
    p.After packet .finished (rules :: others) data ending n ↔
      p.Resumes packet rules others data ending n := by
  constructor
  · intro h
    cases h with
    | back goes after => exact ⟨_, _, _, _, goes, after, rfl⟩
  · rintro ⟨o, data', k, m, hprocess, hafter, rfl⟩
    exact .back hprocess hafter

theorem answers_iff {d : Disposition} :
    p.Answers packet base policy d n ↔ ∃ ending,
      p.Resumes packet (p.rules base) [] (.replicate _ 0) ending n ∧
        d = ending.disposition policy := by
  constructor
  · intro h
    cases h with
    | rule decided => exact ⟨_, ⟨_, _, _, _, decided, .decided, rfl⟩, rfl⟩
    | accept finished => exact ⟨_, ⟨_, _, _, _, finished, .policy, rfl⟩, rfl⟩
    | drop finished => exact ⟨_, ⟨_, _, _, _, finished, .policy, rfl⟩, rfl⟩
  · rintro ⟨ending, ⟨o, data', k, m, hprocess, hafter, rfl⟩, rfl⟩
    cases hafter with
    | decided => exact .rule hprocess
    | policy =>
      cases policy with
      | accept => exact .accept hprocess
      | drop => exact .drop hprocess

end PlainMap

/-! ### Walks find the meaning -/

/-- The rules to come at a place. -/
def Frame.plain (frame : Frame) : List (Nat × List Expr) := frame.rest.map Rule.plain

namespace Journey

variable {j : Journey} {ending : Ending} {n bound : Nat} {frame : Frame} {frames : List Frame}
  {data : Data}

theorem plain_enter {id : ChainId} {chain : Chain} (hget : j.chains.get? id = some chain) :
    (j.enter chain).plain = j.sees.rules id := by
  rw [sees, PlainMap.rules, ChainMap.plain_of_get? hget]
  rfl

/-- Leaving chains changes nothing: the walk is at the end, or at the first rule that the meaning
visits. -/
theorem nextStop_of_resumes
    (h : j.sees.Resumes j.packet frame.plain (frames.map Frame.plain) data ending n) :
    (∃ events, j.nextStop frame frames = (events, none) ∧ ending = .byPolicy ∧ n = 0) ∨
    ∃ events stop, j.nextStop frame frames = (events, some stop) ∧
      j.sees.Resumes j.packet (stop.rule.plain :: stop.behind.plain)
        (stop.stack.frames.map Frame.plain) data ending n := by
  -- down the stack, as in the walk: a chain that is finished visits no rule
  induction frames generalizing frame n with
  | nil =>
    unfold Journey.nextStop
    cases hrest : frame.rest with
    | nil =>
      rw [Frame.plain, hrest] at h
      cases h.of_nil
      exact Or.inl ⟨_, rfl, rfl, rfl⟩
    | cons rule rest =>
      rw [Frame.plain, hrest] at h
      exact Or.inr ⟨_, _, rfl, h⟩
  | cons back frames ih =>
    unfold Journey.nextStop
    cases hrest : frame.rest with
    | nil =>
      rw [Frame.plain, hrest] at h
      rcases ih (PlainMap.After.back_iff.mp h.of_nil) with ⟨events, hnone, hend⟩ | ⟨events, stop,
        hsome, hresumes⟩
      · exact Or.inl ⟨j.endEvent frame :: events, by simp only [hnone], hend⟩
      · exact Or.inr ⟨j.endEvent frame :: events, stop, by simp only [hsome], hresumes⟩
    | cons rule rest =>
      rw [Frame.plain, hrest] at h
      exact Or.inr ⟨_, _, rfl, h⟩

/-- The walk goes on as the meaning continues, or ends as the meaning does. -/
theorem follow_of_continues {stop : Stop} {verdict : Verdict}
    (hgoes : (∃ more place stack, j.follow stop verdict = (more, .go place stack)) ∨
      ∃ more ending, j.follow stop verdict = (more, .stop (.ok ending)))
    (h : j.sees.Continues j.packet stop.behind.plain (stop.stack.frames.map Frame.plain) data
      ending n verdict) :
    (∃ more place stack, j.follow stop verdict = (more, .go place stack) ∧
      j.sees.Resumes j.packet place.plain (stack.frames.map Frame.plain) data ending n) ∨
    ∃ more, j.follow stop verdict = (more, .stop (.ok ending)) ∧ n = 0 := by
  obtain ⟨rule, behind, ⟨frames⟩⟩ := stop
  cases verdict with
  | mismatch => exact Or.inl ⟨_, _, _, rfl, h⟩
  | proceed => exact Or.inl ⟨_, _, _, rfl, h⟩
  | final d =>
    obtain ⟨rfl, rfl⟩ := h
    exact Or.inr ⟨_, rfl, rfl⟩
  | leave =>
    cases frames with
    | nil =>
      cases h
      exact Or.inr ⟨_, rfl, rfl⟩
    | cons back frames => exact Or.inl ⟨_, _, _, rfl, PlainMap.After.back_iff.mp h⟩
  | jump target =>
    -- the walk does not fail here, so the target is there and the stack has room
    simp only [follow] at hgoes ⊢
    cases hget : j.chains.get? target with
    | none => simp [hget] at hgoes
    | some chain =>
      simp only [hget] at hgoes ⊢
      cases hpush : JumpStack.push? ⟨frames⟩ behind with
      | none => simp [hpush] at hgoes
      | some stack =>
        refine Or.inl ⟨_, _, _, rfl, ?_⟩
        rw [plain_enter hget, JumpStack.frames_of_push? hpush]
        exact h
  | goto target =>
    simp only [follow] at hgoes ⊢
    cases hget : j.chains.get? target with
    | none => simp [hget] at hgoes
    | some chain =>
      refine Or.inl ⟨_, _, _, rfl, ?_⟩
      rw [plain_enter hget]
      exact h

/-- A safe walk ends as the meaning tells, after as many visits, if the budget lasts. -/
theorem Safe.walk_eq (h : j.Safe bound frame frames) (hsound : j.sees.Sound)
    (hbound : bound ≤ JumpStack.capacity) {regs : Registers}
    (hmeans : j.sees.Resumes j.packet frame.plain (frames.map Frame.plain) regs.data ending n)
    (left : Nat) :
    if n ≤ left then (j.walk left regs frame ⟨frames⟩).result = .ok ending ∧
      (j.walk left regs frame ⟨frames⟩).visited = n
    else ∃ name, (j.walk left regs frame ⟨frames⟩).result =
      .error (.stepBudgetExhausted name j.budget) := by
  -- on the budget, as the walk itself; each visit takes one off the number of visits to come
  induction left generalizing frame frames regs n with
  | zero =>
    rcases nextStop_of_resumes hmeans with ⟨events, hnone, rfl, rfl⟩ | ⟨events, stop, hsome,
      hresumes⟩
    · rw [walk_end hnone]
      exact ⟨rfl, rfl⟩
    · -- the meaning still visits a rule, and the walk must not
      obtain ⟨v, data', m, -, rfl, -⟩ := hresumes.visit
      rw [walk_exhausted hsome, if_neg (Nat.not_succ_le_zero m)]
      exact ⟨_, rfl⟩
  | succ left ih =>
    rcases nextStop_of_resumes hmeans with ⟨events, hnone, rfl, rfl⟩ | ⟨events, stop, hsome,
      hresumes⟩
    · rw [walk_end hnone, if_pos (Nat.zero_le _)]
      exact ⟨rfl, rfl⟩
    · obtain ⟨v, data', m, hruns, rfl, hcontinues⟩ := hresumes.visit
      have heval : Expr.evalAll stop.rule.exprs regs.reset j.packet = ⟨v, data'⟩ :=
        Expr.runs_iff.mp hruns
      have hstop := (h.nextStop hsome).follow hsound hbound (j.target_mem regs stop.rule)
      rw [heval] at hstop
      rcases hstop with ⟨more, place, stack, hgo, hsafe⟩ | ⟨more, ending', hend⟩
      · rcases follow_of_continues (Or.inl ⟨_, _, _, hgo⟩) hcontinues with ⟨more', place', stack',
          hgo', hresumes'⟩ | ⟨more', hend, -⟩
        · cases hgo.symm.trans hgo'
          -- the place that is safe is the place that the meaning goes on from
          rw [walk_go hsome heval hgo]
          have hrest := ih hsafe (show j.sees.Resumes j.packet place.plain
            (stack.frames.map Frame.plain) (⟨v, data'⟩ : Registers).data ending m from hresumes')
          by_cases hle : m ≤ left
          · rw [if_pos hle] at hrest
            rw [if_pos (Nat.succ_le_succ hle)]
            exact ⟨hrest.1, congrArg (· + 1) hrest.2⟩
          · rw [if_neg hle] at hrest
            rw [if_neg fun hsucc => hle (Nat.le_of_succ_le_succ hsucc)]
            exact hrest
        · cases hgo.symm.trans hend
      · rcases follow_of_continues (Or.inr ⟨_, _, hend⟩) hcontinues with ⟨more', place', stack',
          hgo, -⟩ | ⟨more', hend', rfl⟩
        · cases hgo.symm.trans hend
        · cases hend.symm.trans hend'
          rw [walk_stop hsome heval hend, if_pos (by omega)]
          exact ⟨rfl, rfl⟩

section start

variable {base : ChainId} {chain : Chain} (hget : j.chains.get? base = some chain)
  (hsound : j.sees.Sound) (hdepth : j.sees.edges.DepthLe base bound)
  (hbound : bound ≤ JumpStack.capacity)
include hget hsound hdepth hbound

theorem start_eq
    (hmeans : j.sees.Resumes j.packet (j.sees.rules base) [] (.replicate _ 0) ending n)
    (left : Nat) :
    if n ≤ left then (j.walk left .initial (j.enter chain) .empty).result = .ok ending ∧
      (j.walk left .initial (j.enter chain) .empty).visited = n
    else ∃ name, (j.walk left .initial (j.enter chain) .empty).result =
      .error (.stepBudgetExhausted name j.budget) := by
  have hsafe : j.Safe bound (j.enter chain) [] :=
    .base (placed_enter hget hdepth (Nat.le_of_eq (Nat.zero_add bound)))
  rw [← plain_enter hget] at hmeans
  have hstart : j.sees.Resumes j.packet (j.enter chain).plain ([].map Frame.plain)
      Registers.initial.data ending n := hmeans
  exact hsafe.walk_eq hsound hbound hstart left

variable {policy : Policy} {d d' : Disposition} {n' : Nat}

/-- There is only one answer, since a walk that may visit enough rules finds every answer. -/
theorem answers_unique (h : j.sees.Answers j.packet base policy d n)
    (h' : j.sees.Answers j.packet base policy d' n') : d' = d ∧ n' = n := by
  obtain ⟨ending, hmeans, rfl⟩ := PlainMap.answers_iff.mp h
  obtain ⟨ending', hmeans', rfl⟩ := PlainMap.answers_iff.mp h'
  -- one walk with a budget for both
  have hwalk := start_eq hget hsound hdepth hbound hmeans (max n n')
  have hwalk' := start_eq hget hsound hdepth hbound hmeans' (max n n')
  rw [if_pos (Nat.le_max_left n n')] at hwalk
  rw [if_pos (Nat.le_max_right n n')] at hwalk'
  obtain ⟨hresult, hvisited⟩ := hwalk
  obtain ⟨hresult', hvisited'⟩ := hwalk'
  rw [hresult] at hresult'
  cases hresult'
  exact ⟨rfl, hvisited'.symm.trans hvisited⟩

/-- The walk gives the answer, unless it may visit fewer rules. -/
theorem start_of_answers (h : j.sees.Answers j.packet base policy d n) :
    if n ≤ j.budget then (j.start chain).evaluation policy = .ok ⟨d, n⟩
    else ∃ name, (j.start chain).evaluation policy =
      .error (.stepBudgetExhausted name j.budget) := by
  obtain ⟨ending, hmeans, rfl⟩ := PlainMap.answers_iff.mp h
  have hwalk := start_eq hget hsound hdepth hbound hmeans j.budget
  split
  · next hle =>
    rw [if_pos hle] at hwalk
    obtain ⟨hresult, hvisited⟩ := hwalk
    rw [start, Walk.evaluation, hresult, hvisited]
    rfl
  · next hlt =>
    rw [if_neg hlt] at hwalk
    obtain ⟨name, hresult⟩ := hwalk
    exact ⟨name, Walk.evaluation_eq_error_iff.mpr hresult⟩

end start

end Journey

/-! ### Evaluations -/

/-- An evaluation that comes to something comes to the answer, and not beyond its budget. -/
theorem Evaluation.eq_of_ok {result : Except EvalError Evaluation} {e : Evaluation}
    {d : Disposition} {n steps : Nat} (hok : result = .ok e)
    (hwithin : n ≤ steps → result = .ok ⟨d, n⟩)
    (hbeyond : steps < n → ∃ name, result = .error (.stepBudgetExhausted name steps)) :
    e = ⟨d, n⟩ ∧ n ≤ steps := by
  rcases Nat.lt_or_ge steps n with hlt | hle
  · obtain ⟨name, herror⟩ := hbeyond hlt
    cases hok.symm.trans herror
  · exact ⟨Except.ok.inj (hok.symm.trans (hwithin hle)), hle⟩

namespace System

variable {s : System}

/-- A base chain has one answer to a packet, and every evaluation that may visit enough rules comes
to it. -/
theorem Reachable.exists_answer (h : s.Reachable) {packet : Packet} {base : ChainId} {chain : Chain}
    {info : BaseChain} (hget : s.table.chains.get? base = some chain)
    (hinfo : chain.base = some info) (hns : info.ns = packet.ns) :
    ∃ d n, (s.sees s.table.generation).Answers packet base info.policy d n ∧
      (∀ d' n', (s.sees s.table.generation).Answers packet base info.policy d' n' →
        d' = d ∧ n' = n) ∧
      ∀ ev : Evaluator,
        (n ≤ ev.maxSteps → (ev.tryEvaluate s.table packet base).result = .ok ⟨d, n⟩) ∧
        (ev.maxSteps < n → ∃ name, (ev.tryEvaluate s.table packet base).result =
          .error (.stepBudgetExhausted name ev.maxSteps)) := by
  obtain ⟨depth, hle, hdepth⟩ := h.inv.exists_depth hget hinfo
  have hsound : (s.sees s.table.generation).Sound := h.inv.sound (Or.inl rfl)
  obtain ⟨d, n, hanswer⟩ := PlainMap.exists_answers hdepth info.policy
  refine ⟨d, n, hanswer, ?_, ?_⟩
  · intro d' n' hanswer'
    exact @Journey.answers_unique (Evaluator.plain.journey s.table packet) _ _ _ _ hget hsound
      hdepth hle _ _ _ _ hanswer hanswer'
  · intro ev
    have hwalk := @Journey.start_of_answers (ev.journey s.table packet) _ _ _ _ hget hsound
      hdepth hle _ _ hanswer
    rw [Evaluator.result_tryEvaluate, Evaluator.baseChain?_eq_some_iff.mpr ⟨hget, hinfo⟩]
    dsimp only
    rw [if_neg fun hne => hne hns]
    constructor
    · intro hsteps
      exact (if_pos hsteps).mp hwalk
    · intro hsteps
      exact (if_neg (Nat.not_le_of_lt hsteps)).mp hwalk

/-- At every moment, every base chain has exactly one answer to a packet of its namespace, and an
evaluation gives it with the number of visits, unless it may visit fewer rules. -/
theorem Reachable.evaluation_meaning (h : s.Reachable) (ev : Evaluator) (packet : Packet)
    {base : ChainId} {chain : Chain} {info : BaseChain}
    (hget : s.table.chains.get? base = some chain) (hinfo : chain.base = some info)
    (hns : info.ns = packet.ns) :
    ∃ d n, (s.sees s.table.generation).Answers packet base info.policy d n ∧
      (∀ d' n', (s.sees s.table.generation).Answers packet base info.policy d' n' →
        d' = d ∧ n' = n) ∧
      (n ≤ ev.maxSteps → (ev.tryEvaluate s.table packet base).result = .ok ⟨d, n⟩) ∧
      (ev.maxSteps < n → ∃ name, (ev.tryEvaluate s.table packet base).result =
        .error (.stepBudgetExhausted name ev.maxSteps)) := by
  obtain ⟨d, n, hanswer, hunique, hfinds⟩ := h.exists_answer hget hinfo hns
  exact ⟨d, n, hanswer, hunique, hfinds ev⟩

/-- A jump to a chain that returns, and then a rule that drops: three visits. Without that rule a
chain is finished after two, and its policy drops; a chain without rules is finished at once, and
its policy accepts. -/
theorem Reachable.evaluation_meaning_committed : ∃ s : System, s.Reachable ∧
    (s.sees s.table.generation).Answers default ⟨0⟩ .accept .drop 3 ∧
    (s.sees s.table.generation).Answers default ⟨2⟩ .drop .drop 2 ∧
    (s.sees s.table.generation).Answers default ⟨3⟩ .accept .accept 0 := by
  have committed := (((create "filter" .initial 1).step .begin).applyAll
    [.addChain "input" (some .accept), .addChain "web" none, .addChain "forward" (some .drop),
      .addChain "output" (some .accept),
      .placeRule ⟨0⟩ [.ofVerdict (.jump ⟨1⟩)] .back, .placeRule ⟨1⟩ [.ofVerdict .leave] .back,
      .placeRule ⟨0⟩ [.ofVerdict (.final .drop)] .back,
      .placeRule ⟨2⟩ [.ofVerdict (.jump ⟨1⟩)] .back]).commit
  refine ⟨_, committed, ?_⟩
  obtain ⟨d, n, hruled, -, hfound, hexhausted⟩ :=
    @Reachable.evaluation_meaning _ committed Evaluator.plain default ⟨0⟩ _ _ rfl rfl rfl
  obtain ⟨d', n', hdropped, -, hfound', hexhausted'⟩ :=
    @Reachable.evaluation_meaning _ committed Evaluator.plain default ⟨2⟩ _ _ rfl rfl rfl
  obtain ⟨d'', n'', haccepted, -, hfound'', hexhausted''⟩ :=
    @Reachable.evaluation_meaning _ committed Evaluator.plain default ⟨3⟩ _ _ rfl rfl rfl
  cases (Evaluation.eq_of_ok (e := ⟨.drop, 3⟩) rfl hfound hexhausted).1
  cases (Evaluation.eq_of_ok (e := ⟨.drop, 2⟩) rfl hfound' hexhausted').1
  cases (Evaluation.eq_of_ok (e := ⟨.accept, 0⟩) rfl hfound'' hexhausted'').1
  exact ⟨hruled, hdropped, haccepted⟩

end System

end RuleChain
