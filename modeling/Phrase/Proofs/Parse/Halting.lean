import Phrase.Proofs.Parse.Attempt

/-!
# Where whitespace comes from

Whitespace becomes a token where a rule asks for it, where a token is given that class, and behind
tokens where it is skipped by itself.  Where that is switched off, only such rules are left
(`Rule.makesWhitespace`).

An interpreter that is halted at the first of them shows that: as long as it is not halted it goes
as the interpreter does (`Environment.halting_foretells`), and it emits no token of whitespace
(`Environment.clear_haltingCalls`).  So where there is one, such a rule has been parsed
(`Environment.halts_of_whitespace`).
-/

namespace Phrase

/-- Whether a rule can make a token of whitespace itself. -/
def Rule.makesWhitespace : Rule → Bool
  | .scopeWhitespace | .whitespace _ => true
  | .token t | .capture t | .symbolOf _ t => t.kind == .whitespace
  | .emit kind _ => kind == .whitespace
  | _ => false

/-- Whether an event is a token of whitespace. -/
def Event.isWhitespace : Event → Bool
  | .token kind _ => kind == .whitespace
  | _ => false

/-! ## The interpreter that is halted there -/

namespace Environment

/-- Parses a rule, and is halted if it makes whitespace.  What is inside of a token leaves no
trace, so the usual interpreter goes on there. -/
def haltingRule (env : Environment) (f : Fault) (calls plain : Calls) (r : Rule) (scope : Scope) :
    Parse Outputs :=
  if r.makesWhitespace then .halt (.fault f)
  else env.parseRule (if r.isToken then plain else calls) r scope

/-- Tries a rule; going on from there is halted if the rule makes whitespace. -/
def haltingAttempt (env : Environment) (f : Fault) (calls plain : Calls) (r : Rule) : Attempt :=
  fun p =>
    if r.makesWhitespace then do
      return (← env.attemptRule plain r p).map fun _ _ => .halt (.fault f)
    else env.attemptRule (if r.isToken then plain else calls) r p

/-- What the rules inside of a rule do with this much fuel, where making whitespace is a fault. -/
def haltingCalls (env : Environment) (f : Fault) : Nat → Calls
  | 0 => ⟨fun _ _ => .halt .exhausted, fun _ _ => .error .exhausted, 0⟩
  | fuel + 1 =>
    ⟨env.haltingRule f (haltingCalls env f fuel) (env.calls fuel),
      env.haltingAttempt f (haltingCalls env f fuel) (env.calls fuel), fuel + 1⟩

end Environment

/-! ## Unless it is halted it is the interpreter -/

/-- A run that is halted where whitespace is made tells of the run that is not. -/
def Comparison.halting (f : Fault) : Comparison :=
  { moreFuel with
    Halts h := h = .fault f
    halts h := h.elim }

namespace Environment

open Comparison Excuse

variable {env : Environment} {f : Fault} {calls calls' : Calls}

theorem haltingRule_foretells (h : (halting f).Skips calls calls')
    (hparse : (halting f).Parses calls calls') (r : Rule) (s : Scope) (p : Nat) :
    (halting f).Agree (env.haltingRule f calls calls' r s) (env.parseRule calls' r s) p := by
  have hmatch := hparse.matches_token (fun _ => rfl) fun _ he => he
  unfold haltingRule
  split
  · exact .void rfl
  · split
    · exact .refl _ p
    · exact anyRule_foretells h hparse hmatch (.of_same Iff.rfl h) rfl p

theorem haltingAttempt_foretells (h : (halting f).Skips calls calls')
    (hparse : (halting f).Parses calls calls') (r : Rule) (p : Nat) :
    (halting f).Attempts r (env.haltingAttempt f calls calls' r) (env.attemptRule calls' r) p := by
  have hmatch := hparse.matches_token (fun _ => rfl) fun _ he => he
  unfold Attempts haltingAttempt
  split
  · cases env.attemptRule calls' r p with
    | error e => exact .error e
    | ok c? =>
      cases c? with
      | none => exact .ok .none
      | some c => exact .ok (.some fun _ _ => .void rfl)
  · split
    · refine Tells.refl (fun c? => ?_) _
      cases c? with
      | none => exact .none
      | some c => exact .some fun hs q => hs ▸ Foretells.refl _ q
    · exact anyAttempt_foretells (s := .silent) h hparse hmatch (.of_same Iff.rfl h) rfl p

theorem halting_foretells (env : Environment) (f : Fault) (n : Nat) :
    (halting f).Skips (env.haltingCalls f n) (env.calls n) ∧
      (halting f).Parses (env.haltingCalls f n) (env.calls n) := by
  induction n with
  | zero => exact ⟨⟨fun _ _ => .error _, .inl rfl⟩, fun _ _ => .error _⟩
  | succ n ih =>
    refine ⟨⟨fun _ p => haltingAttempt_foretells ih.1 ih.2 _ p, .inl rfl⟩, fun hs p => ?_⟩
    obtain rfl := hs
    exact haltingRule_foretells ih.1 ih.2 _ _ p

end Environment

/-! ## Parses that emit no whitespace -/

namespace Parse

variable {α β σ : Type}

/-- No token of whitespace is among the events. -/
def Clear (m : Parse α) (p : Nat) : Prop := ∀ o, m p = .ok o → ∀ e ∈ o.events, e.isWhitespace = false

theorem clear_of_eq {m : Parse α} {p : Nat} {o : Outcome α} (h : m p = .ok o)
    (ho : ∀ e ∈ o.events, e.isWhitespace = false) : m.Clear p := by
  intro o' ho'
  obtain rfl := Except.ok.inj (h.symm.trans ho')
  exact ho

theorem clear_of_error {m : Parse α} {p : Nat} {h : Halt} (hm : m p = .error h) : m.Clear p :=
  fun _ ho => nomatch hm.symm.trans ho

/-- A parse that emits nothing. -/
theorem clear_of_silent {m : Parse α} {p : Nat} {result : Option α} {q : Nat}
    (h : m p = .ok ⟨result, q, []⟩) : m.Clear p :=
  clear_of_eq h fun _ he => nomatch he

theorem clear_pure (a : α) (p : Nat) : (pure a : Parse α).Clear p := clear_of_silent rfl

theorem clear_fail (p : Nat) : (fail : Parse α).Clear p := clear_of_silent rfl

theorem clear_position (p : Nat) : position.Clear p := clear_of_silent rfl

theorem clear_lift (x : Except Fault α) (p : Nat) : (lift x).Clear p := by
  cases x with
  | error f => exact clear_of_error (h := .fault f) rfl
  | ok a => exact clear_of_silent (lift_ok a p)

theorem clear_emit {e : Event} (he : e.isWhitespace = false) (p : Nat) : (emit e).Clear p :=
  clear_of_eq rfl fun _ h => List.mem_singleton.1 h ▸ he

theorem Clear.bind {m : Parse α} {k : α → Parse β} {p : Nat} (hm : m.Clear p)
    (hk : ∀ a q, (k a).Clear q) : (m >>= k).Clear p := by
  intro o ho
  rcases bind_cases ho with ⟨_, _, hmp, rfl⟩ | ⟨a, q, es, next, hmp, hnext, rfl⟩
  · exact hm _ hmp
  · exact List.forall_mem_append.2 ⟨hm _ hmp, hk a q _ hnext⟩

/-- Behind a look at what an attempt finds. -/
theorem clear_look_bind {f : Nat → Except Halt α} {k : α → Parse β} {p : Nat}
    (hk : ∀ a, f p = .ok a → (k a).Clear p) : (look f >>= k).Clear p := by
  cases h : f p with
  | error e =>
    have hlook : look f p = .error e := by rw [look, h]
    exact clear_of_error (bind_of_error hlook)
  | ok a =>
    unfold Clear
    rw [bind_of_quiet (look_eq h)]
    exact hk a h

/-- Behind a look at the position. -/
theorem clear_position_bind {k : Nat → Parse β} {p : Nat} (hk : (k p).Clear p) :
    (position >>= k).Clear p := by
  unfold Clear
  rw [bind_of_quiet (m := position) rfl]
  exact hk

theorem Clear.orDefault {m : Parse α} {p : Nat} (h : m.Clear p) (a : α) :
    (m.orDefault a).Clear p := by
  intro o ho
  obtain ⟨first, hm, rfl⟩ := orDefault_cases ho
  exact h first hm

theorem Clear.between {m : Parse α} {p : Nat} (h : m.Clear p) (name : String) :
    (m.between (.start name) (.close name)).Clear p := by
  intro o ho
  obtain ⟨first, hm, rfl⟩ := between_cases ho
  have hclose : (Event.close name first.result.isSome first.position).isWhitespace = false := by
    cases first.result <;> rfl
  exact List.forall_mem_cons.2
    ⟨rfl, List.forall_mem_append.2 ⟨h _ hm, List.forall_mem_singleton.2 hclose⟩⟩

theorem clear_iterate {step : σ → Parse (ForInStep σ)} (hstep : ∀ s p, (step s).Clear p)
    (fuel : Nat) (s : σ) (p : Nat) : (iterate step fuel s).Clear p := by
  induction fuel generalizing s p with
  | zero => exact clear_of_error (h := .exhausted) rfl
  | succ fuel ih =>
    rw [iterate]
    refine (hstep s p).bind fun x q => ?_
    cases x with
    | yield s => exact ih s q
    | done s => exact clear_pure s q

theorem clear_replicate {step : σ → Parse σ} (hstep : ∀ s p, (step s).Clear p) (count : Nat)
    (s : σ) (p : Nat) : (replicate step count s).Clear p := by
  induction count generalizing s p with
  | zero => exact clear_pure s p
  | succ count ih =>
    rw [replicate]
    exact (hstep s p).bind fun s q => ih s q

end Parse

/-! ## Tokens -/

namespace Environment

open Parse

variable {env : Environment} {calls : Calls} {s : Scope} {p : Nat}

theorem clear_report (kind : ErrorKind) (range : Span) (p : Nat) :
    (report s kind range).Clear p := clear_emit rfl p

theorem clear_moveTo (stop p : Nat) : (env.moveTo stop).Clear p := by
  intro o ho
  unfold moveTo Parse.move at ho
  split at ho
  · cases ho
  · cases ho
    exact fun _ he => nomatch he

theorem clear_passToken {kind : TokenKind} (hkind : (kind == .whitespace) = false) (stop p : Nat) :
    (env.passToken kind stop).Clear p :=
  (clear_position _).bind fun _ q =>
    Clear.bind (clear_emit (e := .token kind ⟨_, stop⟩) hkind q) fun _ q => clear_moveTo stop q

theorem clear_reportFailure (failure : TokenFailure) (s : Scope) (p : Nat) :
    (env.reportFailure failure s).Clear p := by
  refine (clear_position _).bind fun begin q => ?_
  split
  · refine (Clear.bind (clear_emit rfl q) fun _ q => ?_)
    exact (clear_moveTo _ q).bind fun _ q => clear_report _ _ q
  · exact clear_report _ _ q

theorem clear_expectToken (t : Token) (s : Scope) (p : Nat) :
    (env.expectToken calls t s).Clear p := by
  refine clear_look_bind fun m _ => ?_
  cases m with
  | ok stop => exact clear_pure stop p
  | error failure => exact (clear_reportFailure failure s p).bind fun _ q => clear_fail q

theorem clear_refuseSymbol {kind : TokenKind} (hkind : (kind == .whitespace) = false)
    (stop : Nat) (s : Scope) (p : Nat) : (env.refuseSymbol kind stop s).Clear p :=
  (clear_position _).bind fun _ q =>
    (clear_passToken hkind stop q).bind fun _ q =>
      (clear_report _ _ q).bind fun _ q => clear_fail q

section
variable (hs : s.auto = false)
include hs

theorem clear_skipWhitespace (p : Nat) : (skipWhitespace calls s).Clear p := by
  unfold skipWhitespace
  rw [hs]
  exact clear_pure () p

theorem clear_finishToken {kind : TokenKind} (hkind : (kind == .whitespace) = false) (stop p : Nat) :
    (env.finishToken calls kind stop s).Clear p :=
  (clear_passToken hkind stop p).bind fun _ q => clear_skipWhitespace hs q

theorem clear_commitSymbol {kind : TokenKind} (hkind : (kind == .whitespace) = false) (v : Value)
    (stop p : Nat) : (env.commitSymbol calls kind v stop s).Clear p :=
  (clear_finishToken hs hkind stop p).bind fun _ q => clear_pure _ q

/-- A rule that makes one token, of another class. -/
theorem clear_parseToken {r : Rule} (htoken : r.isToken = true) (hr : r.makesWhitespace = false)
    (p : Nat) : (env.parseRule calls r s).Clear p := by
  cases r with
  | token t =>
    exact (clear_expectToken t s p).bind fun stop q =>
      (clear_finishToken hs hr stop q).bind fun _ q => clear_pure _ q
  | capture t =>
    exact (clear_expectToken t s p).bind fun stop q =>
      (clear_position _).bind fun _ q =>
        (clear_finishToken hs hr stop q).bind fun _ q => clear_pure _ q
  | integer type radix =>
    refine (clear_expectToken (.digits radix) s p).bind fun stop q => ?_
    refine (clear_position q).bind fun begin q => ?_
    refine (clear_lift _ q).bind fun digits q => ?_
    split
    · exact (clear_finishToken hs rfl stop q).bind fun _ q => clear_pure _ q
    · exact (clear_passToken rfl stop q).bind fun _ q =>
        (clear_report _ _ q).bind fun _ q => clear_fail q
  | symbol table =>
    refine clear_look_bind fun found _ => ?_
    split
    · exact clear_commitSymbol hs rfl _ _ p
    · exact (clear_position p).bind fun _ q => (clear_report _ _ q).bind fun _ q => clear_fail q
  | symbolOf table t =>
    refine (clear_expectToken t s p).bind fun stop q => ?_
    refine (clear_position q).bind fun begin q => ?_
    refine (clear_lift _ q).bind fun found q => ?_
    split
    · exact clear_commitSymbol hs hr _ stop q
    · exact clear_refuseSymbol hr stop s q
  | symbolIdentifier table leading trailing =>
    refine (clear_position p).bind fun begin q => ?_
    refine (clear_lift _ q).bind fun found q => ?_
    split
    · exact clear_commitSymbol hs rfl _ _ q
    · exact (clear_expectToken _ s q).bind fun stop q => clear_refuseSymbol rfl stop s q
  | _ => cases htoken

end

end Environment

/-! ## All rules -/

/-- What the rules inside of a rule do where whitespace is not skipped by itself: they emit none. -/
structure Calls.Clear (calls : Calls) : Prop where
  parse : ∀ r {s} p, s.auto = false → (calls.parse r s).Clear p
  attempt : ∀ {r p c}, calls.attempt r p = .ok (some c) → ∀ {s}, s.auto = false → (c s).Clear p

theorem Scope.auto_inside {s : Scope} (hs : s.auto = false) (p : Production) :
    (s.inside p).auto = false := by
  unfold inside
  simp only [hs, ite_self]

namespace Environment

open Parse

variable {env : Environment} {calls : Calls} (hcalls : calls.Clear) {s : Scope}
  (hs : s.auto = false) {p : Nat}

section
include hs

theorem clear_thenSkip {first : Parse Outputs} (hfirst : first.Clear p) :
    (thenSkip calls first s).Clear p :=
  hfirst.bind fun _ q => (clear_skipWhitespace hs q).bind fun _ q => clear_pure _ q

theorem clear_inProduction (production : Production) {body : Commit}
    (hbody : (body (s.inside production)).Clear p) :
    (inProduction calls production s body).Clear p := by
  unfold inProduction
  split
  · exact (clear_position p).bind fun _ q => (clear_report _ _ q).bind fun _ q => clear_fail q
  · exact (hbody.between production.name).bind fun _ q =>
      (clear_skipWhitespace hs q).bind fun _ q => clear_pure _ q

end

include hcalls hs

theorem clear_andThen {first : Parse Outputs} (hfirst : first.Clear p) (rest : Rule) :
    (andThen calls first rest s).Clear p :=
  hfirst.bind fun _ q => (hcalls.parse rest q hs).bind fun _ q => clear_pure _ q

theorem clear_moreItems (item : Rule) (c : Container) (p : Nat) :
    (moreItems calls item s c).Clear p := by
  refine clear_iterate (fun c p => ?_) _ c p
  refine clear_look_bind fun commit? hcommit => ?_
  cases commit? with
  | none => exact clear_pure _ p
  | some commit =>
    refine clear_position_bind ((hcalls.attempt hcommit hs).bind fun outputs q => ?_)
    refine (clear_position q).bind fun position q => ?_
    split
    · exact clear_pure _ q
    · exact clear_pure _ q

theorem clear_listFrom (item : Rule) {first : Parse Outputs} (hfirst : first.Clear p) :
    (listFrom calls item s first).Clear p :=
  hfirst.bind fun _ q => (clear_moreItems hcalls hs item _ q).bind fun _ q => clear_pure _ q

theorem clear_separatedItems (item separator : Rule) (c : Container) (p : Nat) :
    (separatedItems calls item separator s c).Clear p := by
  refine clear_iterate (fun c p => ?_) _ c p
  refine clear_look_bind fun commit? hcommit => ?_
  cases commit? with
  | none => exact clear_pure _ p
  | some commit =>
    exact (hcalls.attempt hcommit hs).bind fun _ q =>
      (hcalls.parse item q hs).bind fun _ q => clear_pure _ q

theorem clear_trailedItems (item separator : Rule) (c : Container) (p : Nat) :
    (trailedItems calls item separator s c).Clear p := by
  refine clear_iterate (fun c p => ?_) _ c p
  refine clear_look_bind fun commit? hcommit => ?_
  cases commit? with
  | none => exact clear_pure _ p
  | some commit =>
    refine (hcalls.attempt hcommit hs).bind fun _ q => ?_
    refine clear_look_bind fun commit? hcommit => ?_
    cases commit? with
    | none => exact clear_pure _ q
    | some commit => exact (hcalls.attempt hcommit hs).bind fun _ q => clear_pure _ q

/-- A rule that neither makes a token itself nor makes whitespace. -/
theorem clear_parseRule {r : Rule} (htoken : ¬ r.isToken) (hr : r.makesWhitespace = false)
    (p : Nat) : (env.parseRule calls r s).Clear p := by
  have hreport : ∀ kind range q, (report s kind range).Clear q :=
    fun kind range q => clear_report kind range q
  cases r with
  | token | capture | integer | symbol | symbolOf | symbolIdentifier => exact absurd rfl htoken
  | scopeWhitespace | whitespace => cases hr
  | position =>
    exact (clear_position p).bind fun _ q =>
      Clear.bind (clear_emit rfl q) fun _ q => clear_pure _ q
  | seq first second => exact clear_andThen hcalls hs (hcalls.parse first p hs) second
  | branch condition rest => exact clear_andThen hcalls hs (hcalls.parse condition p hs) rest
  | choice first second =>
    refine clear_look_bind fun commit? hcommit => ?_
    cases commit? with
    | none => exact (clear_position p).bind fun _ q => (hreport _ _ q).bind fun _ q => clear_fail q
    | some commit => exact hcalls.attempt hcommit hs
  | opt r =>
    refine clear_look_bind fun commit? hcommit => ?_
    cases commit? with
    | none => exact clear_pure _ p
    | some commit => exact hcalls.attempt hcommit hs
  | list item => exact clear_listFrom hcalls hs item (hcalls.parse item p hs)
  | listOpt item => exact (clear_moreItems hcalls hs item _ p).bind fun _ q => clear_pure _ q
  | listSep item separator =>
    exact (hcalls.parse item p hs).bind fun _ q =>
      (clear_separatedItems hcalls hs item separator _ q).bind fun _ q => clear_pure _ q
  | listTrailing item separator =>
    exact (hcalls.parse item p hs).bind fun _ q =>
      (clear_trailedItems hcalls hs item separator _ q).bind fun _ q => clear_pure _ q
  | times count item =>
    refine Clear.bind (clear_replicate (fun c q => ?_) count _ p) fun _ q => clear_pure _ q
    exact (hcalls.parse item q hs).bind fun _ q => clear_pure _ q
  | production number | recurse number =>
    exact clear_inProduction hs _ (hcalls.parse _ p (s.auto_inside hs _))
  | recover r => exact (hcalls.parse r p hs).orDefault _
  | noWhitespace r => exact clear_thenSkip hs (hcalls.parse r p rfl)
  | never | context => exact clear_pure _ p
  | fail message =>
    exact (clear_position p).bind fun _ q => (hreport _ _ q).bind fun _ q => clear_fail q
  | warn message =>
    exact (clear_position p).bind fun _ q => (hreport _ _ q).bind fun _ q => clear_pure _ q
  | emit kind width =>
    exact (clear_position p).bind fun _ q => (clear_passToken hr _ q).bind fun _ q => clear_pure _ q

theorem clear_attemptRule {r : Rule} (htoken : ¬ r.isToken) {c : Commit}
    (h : env.attemptRule calls r p = .ok (some c)) : (c s).Clear p := by
  cases r with
  | token | capture | integer | symbol | symbolOf | symbolIdentifier => exact absurd rfl htoken
  | position =>
    cases h
    exact hcalls.parse .position p hs
  | branch condition rest =>
    obtain ⟨first, hfirst, rfl⟩ := map_some_cases h
    exact clear_andThen hcalls hs (hcalls.attempt hfirst hs) rest
  | choice first second =>
    unfold attemptRule at h
    simp only [bind, Except.bind] at h
    cases hfirst : calls.attempt first p with
    | error e =>
      rw [hfirst] at h
      cases h
    | ok c? =>
      rw [hfirst] at h
      cases c? with
      | none => exact hcalls.attempt h hs
      | some c' =>
        cases h
        exact hcalls.attempt hfirst hs
  | list item =>
    obtain ⟨first, hfirst, rfl⟩ := map_some_cases h
    exact clear_listFrom hcalls hs item (hcalls.attempt hfirst hs)
  | production number =>
    obtain ⟨first, hfirst, rfl⟩ := map_some_cases h
    exact clear_inProduction hs _ (hcalls.attempt hfirst (s.auto_inside hs _))
  | recover r =>
    obtain ⟨first, hfirst, rfl⟩ := map_some_cases h
    exact (hcalls.attempt hfirst hs).orDefault _
  | noWhitespace r =>
    obtain ⟨first, hfirst, rfl⟩ := map_some_cases h
    exact clear_thenSkip hs (hcalls.attempt hfirst rfl)
  | seq | opt | listOpt | listSep | listTrailing | times | recurse | scopeWhitespace
  | whitespace | never | fail | warn | context | emit => cases h

omit hcalls hs

/-! ## The interpreter -/

/-- Where whitespace is not skipped by itself, no rule emits any until the halt. -/
theorem clear_haltingCalls (env : Environment) (f : Fault) (n : Nat) :
    (env.haltingCalls f n).Clear := by
  induction n with
  | zero => exact ⟨fun _ _ _ _ => clear_of_error rfl, fun h => nomatch h⟩
  | succ n ih =>
    refine ⟨fun r s p hs => ?_, fun {r p c} h {s} hs => ?_⟩
    · show (env.haltingRule f (env.haltingCalls f n) (env.calls n) r s).Clear p
      unfold haltingRule
      by_cases hr : r.makesWhitespace = true
      · rw [if_pos hr]
        exact clear_of_error (h := .fault f) rfl
      · rw [if_neg hr]
        by_cases htoken : r.isToken = true
        · rw [if_pos htoken]
          exact clear_parseToken hs htoken (Bool.eq_false_iff.2 hr) p
        · rw [if_neg htoken]
          exact clear_parseRule ih hs htoken (Bool.eq_false_iff.2 hr) p
    · change env.haltingAttempt f (env.haltingCalls f n) (env.calls n) r p = _ at h
      unfold haltingAttempt at h
      by_cases hr : r.makesWhitespace = true
      · rw [if_pos hr] at h
        obtain ⟨_, -, rfl⟩ := map_some_cases h
        exact clear_of_error (h := .fault f) rfl
      · rw [if_neg hr] at h
        by_cases htoken : r.isToken = true
        · rw [if_pos htoken] at h
          have hclear : (env.parseRule (env.calls n) r s).Clear p :=
            clear_parseToken hs htoken (Bool.eq_false_iff.2 hr) p
          exact fun o ho => hclear o ((parseRule_eq_of_attempt htoken h s).trans ho)
        · rw [if_neg htoken] at h
          exact clear_attemptRule ih hs htoken h

/-- Where whitespace is not skipped by itself and yet there is a token of whitespace, a rule has
been parsed that makes one. -/
theorem halts_of_whitespace {n : Nat} {r : Rule} {o : Outcome Outputs} (hs : s.auto = false)
    (ho : env.parse n r s p = .ok o) {e : Event} (he : e ∈ o.events)
    (hwhitespace : e.isWhitespace = true) (f : Fault) :
    (env.haltingCalls f n).parse r s p = .error (.fault f) := by
  have hforetells : Tells _ _ ((env.haltingCalls f n).parse r s p) (env.parse n r s p) :=
    (halting_foretells env f n).2 (r := r) (s := s) rfl p
  have hclear := (clear_haltingCalls env f n).parse r p hs
  unfold Clear at hclear
  generalize (env.haltingCalls f n).parse r s p = x at hforetells hclear ⊢
  rw [ho] at hforetells
  cases hforetells with
  | @void x _ hvoid =>
    cases x with
    | error h => exact congrArg Except.error hvoid
    | ok o =>
      obtain ⟨_, -, hspoils⟩ := hvoid
      exact hspoils.elim
  | ok h =>
    rw [h.eq] at hclear
    exact absurd (hclear o rfl e he) (by rw [hwhitespace]; decide)

end Environment

end Phrase
