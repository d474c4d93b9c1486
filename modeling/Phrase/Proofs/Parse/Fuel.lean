import Phrase.Proofs.Parse.ComparisonRule

/-!
# More fuel

A parse approximates another one if it is exhausted or they answer alike.  More fuel is a
comparison that excuses the lack of fuel only, so it keeps every other answer
(`Environment.parse_mono`, `Environment.attempt_mono`).

Attempts answer with commits, which cannot be compared for equality when they are made with
different fuel; so answers are compared by a relation, and commits by approximation.
-/

namespace Phrase

/-! ## Approximation -/

/-- The first answer is the lack of fuel, or the answers are related. -/
inductive Below (R : α → β → Prop) : Except Halt α → Except Halt β → Prop where
  | exhausted {y : Except Halt β} : Below R (.error .exhausted) y
  | fault (f : Fault) : Below R (.error (.fault f)) (.error (.fault f))
  | ok {a : α} {b : β} : R a b → Below R (.ok a) (.ok b)

theorem Below.refl {R : α → α → Prop} (hR : ∀ a, R a a) (x : Except Halt α) : Below R x x := by
  cases x with
  | ok a => exact .ok (hR a)
  | error h =>
    cases h with
    | fault f => exact .fault f
    | exhausted => exact .exhausted

namespace Parse

variable {α α' β β' σ : Type} {R : α → α' → Prop} {S : β → β' → Prop} {p : Nat}

/-- A parse at a position is exhausted, or another one answers alike. -/
def Below (R : α → α' → Prop) (m : Parse α) (m' : Parse α') (p : Nat) : Prop :=
  Phrase.Below (Outcome.Alike R) (m p) (m' p)

/-- A parse is exhausted, or another one answers the same, wherever they start. -/
def Approximates (m m' : Parse α) : Prop := ∀ p, m.Below Eq m' p

namespace Below

theorem refl (m : Parse α) (p : Nat) : m.Below Eq m p := Phrase.Below.refl Outcome.Alike.refl _

theorem trans {m m' m'' : Parse α} (h : m.Below Eq m' p) (h' : m'.Below Eq m'' p) :
    m.Below Eq m'' p := by
  unfold Below at *
  generalize m p = x at h ⊢
  generalize m' p = y at h h'
  cases h with
  | exhausted => exact .exhausted
  | fault f => exact h'
  | ok h => rw [h.eq]; exact h'

/-- Any answer but the lack of fuel is the other parse's answer too. -/
theorem eq {m m' : Parse α} {x : Except Halt (Outcome α)} (h : m.Below Eq m' p) (hm : m p = x)
    (hx : x ≠ .error .exhausted) : m' p = x := by
  unfold Below at h
  rw [hm] at h
  generalize m' p = y at h ⊢
  cases h with
  | exhausted => exact absurd rfl hx
  | fault f => rfl
  | ok h => rw [h.eq]

end Below

end Parse

/-! ## Calls -/

/-- A commit approximates another one in every scope. -/
def Commit.Approximates (c c' : Commit) : Prop := ∀ scope, (c scope).Approximates (c' scope)

/-- An attempt at a position is exhausted, or another one has the same result. -/
abbrev Attempt.Below (a a' : Attempt) (p : Nat) : Prop :=
  Phrase.Below (Option.Rel Commit.Approximates) (a p) (a' p)

/-- What the rules inside of a rule do approximates what they do with other calls. -/
structure Calls.Below (calls calls' : Calls) : Prop where
  parse : ∀ r scope, (calls.parse r scope).Approximates (calls'.parse r scope)
  attempt : ∀ r p, (calls.attempt r).Below (calls'.attempt r) p
  fuel : calls.fuel ≤ calls'.fuel

/-! ## The comparison -/

namespace Comparison

/-- A run with less fuel tells of one with more, in the same scope, unless its fuel does not
last. -/
def moreFuel : Comparison where
  Halts h := h = .exhausted
  Spoils _ := False
  halts h := h.elim
  Admits _ s s' := s = s'
  scopes {_ s _} h := ⟨s.maxDepth, h.symm⟩
  part h _ := h
  whitespace h _ := h
  withoutAuto h := congrArg _ h
  insideWhitespace h := congrArg _ h

variable {R : α → β → Prop} {p : Nat}

theorem tells_iff_below {Void : Except Halt α → Prop} {x : Except Halt α} {y : Except Halt β}
    (hvoid : ∀ x, Void x ↔ x = .error .exhausted) : Tells Void R x y ↔ Below R x y := by
  constructor
  · intro h
    cases h with
    | void h =>
      rw [(hvoid x).1 h]
      exact .exhausted
    | error h =>
      cases h with
      | fault f => exact .fault f
      | exhausted => exact .exhausted
    | ok h => exact .ok h
  · intro h
    cases h with
    | exhausted => exact .void ((hvoid _).2 rfl)
    | fault f => exact .error (.fault f)
    | ok h => exact .ok h

theorem halted_moreFuel_iff (x : Except Halt α) : moreFuel.Halted x ↔ x = .error .exhausted := by
  cases x with
  | error h => exact ⟨congrArg Except.error, Except.error.inj⟩
  | ok a => exact ⟨False.elim, fun h => nomatch h⟩

theorem void_moreFuel_iff (x : Except Halt (Outcome α)) :
    moreFuel.Void x ↔ x = .error .exhausted := by
  cases x with
  | error h => exact ⟨congrArg Except.error, Except.error.inj⟩
  | ok o => exact ⟨fun ⟨_, _, h⟩ => h.elim, fun h => nomatch h⟩

theorem foretells_iff_below {m : Parse α} {m' : Parse β} :
    moreFuel.Foretells R m m' p ↔ m.Below R m' p :=
  tells_iff_below void_moreFuel_iff

theorem commits_iff_approximates {r : Rule} {c c' : Commit} :
    moreFuel.Commits r c c' ↔ c.Approximates c' :=
  ⟨fun h _ p => foretells_iff_below.1 (h rfl p),
    fun h _ _ hs p => hs ▸ foretells_iff_below.2 (h _ p)⟩

theorem attempts_iff_below {r : Rule} {a a' : Attempt} :
    moreFuel.Attempts r a a' p ↔ a.Below a' p := by
  have hcommits : moreFuel.Commits r = Commit.Approximates :=
    funext fun c => funext fun c' => propext commits_iff_approximates
  rw [Attempts, hcommits]
  exact tells_iff_below halted_moreFuel_iff

end Comparison

namespace Calls.Below

open Comparison

variable {calls calls' : Calls} (h : calls.Below calls')

include h

theorem skips : moreFuel.Skips calls calls' :=
  ⟨fun _ p => attempts_iff_below.2 (h.attempt _ p), .inr ⟨rfl, h.fuel⟩⟩

theorem parses : moreFuel.Parses calls calls' :=
  fun hs p => hs ▸ foretells_iff_below.2 (h.parse _ _ p)

theorem matches_token (r : Rule) : moreFuel.Matches r calls calls' :=
  Parses.matches_token h.parses (fun _ => rfl) (fun _ he => he) r

end Calls.Below

/-! ## Rules -/

theorem Parse.Below.orDefault {m m' : Parse α} {p : Nat} (h : m.Below Eq m' p) (a : α) :
    (m.orDefault a).Below Eq (m'.orDefault a) p :=
  Comparison.foretells_iff_below.1 ((Comparison.foretells_iff_below.2 h).orDefault a)

namespace Environment

open Comparison

variable {env : Environment} {calls calls' : Calls} (h : calls.Below calls') {p : Nat}

include h

theorem andThen_below {first first' : Parse Outputs} (hfirst : first.Below Eq first' p)
    (rest : Rule) (scope : Scope) :
    (andThen calls first rest scope).Below Eq (andThen calls' first' rest scope) p :=
  foretells_iff_below.1 (andThen_foretells h.parses (foretells_iff_below.2 hfirst) rfl)

theorem thenSkip_below {first first' : Parse Outputs} (hfirst : first.Below Eq first' p)
    (scope : Scope) :
    (thenSkip calls first scope).Below Eq (thenSkip calls' first' scope) p :=
  foretells_iff_below.1
    (thenSkip_foretells (r := .never) h.skips (foretells_iff_below.2 hfirst) rfl)

theorem listFrom_below {item : Rule} {scope : Scope} {first first' : Parse Outputs}
    (hfirst : first.Below Eq first' p) :
    (listFrom calls item scope first).Below Eq (listFrom calls' item scope first') p :=
  foretells_iff_below.1 (listFrom_foretells h.skips (foretells_iff_below.2 hfirst) rfl)

theorem inProduction_below (production : Production) (scope : Scope) {body body' : Commit}
    (hbody : (body (scope.inside production)).Below Eq (body' (scope.inside production)) p) :
    (inProduction calls production scope body).Below Eq
      (inProduction calls' production scope body') p :=
  foretells_iff_below.1 (inProduction_foretells_same (r := .never) h.skips production rfl
    (foretells_iff_below.2 hbody))

theorem enters_moreFuel : env.Enters moreFuel calls calls' := .of_same Iff.rfl h.skips

theorem parseRule_below (r : Rule) (scope : Scope) :
    (env.parseRule calls r scope).Approximates (env.parseRule calls' r scope) := fun p =>
  foretells_iff_below.1
    (anyRule_foretells h.skips h.parses h.matches_token (enters_moreFuel h) rfl p)

theorem attemptRule_below (r : Rule) :
    (env.attemptRule calls r).Below (env.attemptRule calls' r) p :=
  attempts_iff_below.1 (anyAttempt_foretells (s := .silent) h.skips h.parses h.matches_token
    (enters_moreFuel h) rfl p)

/-! ## The interpreter -/

omit h

theorem calls_below (env : Environment) {n m : Nat} (hnm : n ≤ m) :
    (env.calls n).Below (env.calls m) := by
  induction n generalizing m with
  | zero => exact ⟨fun _ _ _ => .exhausted, fun _ _ => .exhausted, Nat.zero_le m⟩
  | succ n ih =>
    obtain ⟨m, rfl⟩ : ∃ k, m = k + 1 := ⟨m - 1, by omega⟩
    have hcalls := ih (Nat.le_of_succ_le_succ hnm)
    exact ⟨parseRule_below hcalls, fun r p => attemptRule_below hcalls r, hnm⟩

/-- More fuel keeps every answer of a parse. -/
theorem parse_mono {n m : Nat} (hnm : n ≤ m) {r : Rule} {scope : Scope}
    {x : Except Halt (Outcome Outputs)} (hx : env.parse n r scope p = x)
    (hend : x ≠ .error .exhausted) : env.parse m r scope p = x :=
  ((env.calls_below hnm).parse r scope p).eq hx hend

/-- More fuel keeps the answer whether a rule applies; then going on reaches further. -/
theorem attempt_mono {n m : Nat} (hnm : n ≤ m) {r : Rule} {c? : Option Commit}
    (hx : env.attempt n r p = .ok c?) :
    ∃ c?', env.attempt m r p = .ok c?' ∧ Option.Rel Commit.Approximates c? c?' := by
  have hbelow : Phrase.Below _ (env.attempt n r p) (env.attempt m r p) :=
    (env.calls_below hnm).attempt r p
  rw [hx] at hbelow
  generalize env.attempt m r p = y at hbelow
  cases hbelow with
  | ok h => exact ⟨_, rfl, h⟩

end Environment

end Phrase
