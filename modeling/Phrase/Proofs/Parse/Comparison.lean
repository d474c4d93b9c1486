import Phrase.Proofs.Rule.Inside
import Phrase.Parse.Interpreter

/-!
# Runs that foretell others

Two runs that start alike and differ in fuel, or in how deep productions may be nested, answer
the same unless the first one meets with what they differ in: it is halted, or reports an error
that tells of it.  Which halts and errors these are is an `Excuse`.  Unless it is excused, the
first run foretells the second one; all that parses are made from keeps that.
-/

namespace Phrase

/-! ## Answers -/

/-- The first answer is void, or the answers are alike. -/
inductive Tells (Void : Except Halt α → Prop) (R : α → β → Prop) :
    Except Halt α → Except Halt β → Prop where
  | void {x : Except Halt α} {y : Except Halt β} : Void x → Tells Void R x y
  | error (h : Halt) : Tells Void R (.error h) (.error h)
  | ok {a : α} {b : β} : R a b → Tells Void R (.ok a) (.ok b)

theorem Tells.refl {Void : Except Halt α → Prop} {R : α → α → Prop} (hR : ∀ a, R a a)
    (x : Except Halt α) : Tells Void R x x := by
  cases x with
  | error h => exact .error h
  | ok a => exact .ok (hR a)

/-- Outcomes with related results that agree in all else. -/
structure Outcome.Alike (R : α → β → Prop) (o : Outcome α) (o' : Outcome β) : Prop where
  result : Option.Rel R o.result o'.result
  position : o.position = o'.position
  events : o.events = o'.events

theorem Outcome.Alike.refl (o : Outcome α) : o.Alike Eq o := by
  refine ⟨?_, rfl, rfl⟩
  cases o.result with
  | none => exact .none
  | some a => exact .some rfl

theorem Outcome.Alike.eq {o o' : Outcome α} (h : o.Alike Eq o') : o = o' := by
  obtain ⟨result, p, es⟩ := o
  obtain ⟨result', p', es'⟩ := o'
  obtain ⟨hresult, hp, hes⟩ := h
  cases hp
  cases hes
  cases hresult with
  | none => rfl
  | some h => rw [h]

/-- The halts and the errors after which a run tells nothing of another one. -/
structure Excuse where
  Halts : Halt → Prop
  Spoils : ParseError → Prop
  /-- Behind an error that spoils it, a run may be halted where the other one is not. -/
  halts : ∀ {e}, Spoils e → ∀ h, Halts h

namespace Excuse

/-- An answer without events is void only if it is a halt that is excused. -/
def Halted (x : Excuse) : Except Halt α → Prop
  | .error h => x.Halts h
  | .ok _ => False

/-- An answer is void if it is a halt that is excused, or if an error has spoilt it. -/
def Void (x : Excuse) : Except Halt (Outcome α) → Prop
  | .error h => x.Halts h
  | .ok o => ∃ e, Event.error e ∈ o.events ∧ x.Spoils e

/-- Unless its answer is void, a parse answers as another one that starts where it does. -/
def Foretells (x : Excuse) (R : α → β → Prop) (m : Parse α) (m' : Parse β) (p : Nat) : Prop :=
  Tells x.Void (Outcome.Alike R) (m p) (m' p)

/-- A loop lasts as long as another one, or the lack of fuel is excused. -/
def Lasts (x : Excuse) (fuel fuel' : Nat) : Prop :=
  fuel = fuel' ∨ x.Halts .exhausted ∧ fuel ≤ fuel'

variable {x : Excuse} {α α' β β' σ : Type} {R : α → α' → Prop} {S : β → β' → Prop} {p : Nat}

theorem tells_bind {y : Except Halt α} {y' : Except Halt α'} {f : α → Except Halt β}
    {f' : α' → Except Halt β'} (h : Tells x.Halted R y y')
    (hf : ∀ a b, R a b → Tells x.Halted S (f a) (f' b)) :
    Tells x.Halted S (y >>= f) (y' >>= f') := by
  cases h with
  | @void y _ hvoid =>
    cases y with
    | error h => exact .void hvoid
    | ok a => exact hvoid.elim
  | error h => exact .error h
  | ok hab => exact hf _ _ hab

/-! ## Control -/

theorem void_bind {m : Parse α} {k : α → Parse β} (h : x.Void (m p)) :
    x.Void ((m >>= k) p) := by
  cases hm : m p with
  | error e =>
    rw [hm] at h
    rw [Parse.bind_of_error hm]
    exact h
  | ok o =>
    obtain ⟨result, q, es⟩ := o
    rw [hm] at h
    obtain ⟨e, he, hspoils⟩ := h
    cases result with
    | none =>
      rw [Parse.bind_of_none hm]
      exact ⟨e, he, hspoils⟩
    | some a =>
      rw [Parse.bind_of_some hm]
      cases k a q with
      | error h => exact x.halts hspoils h
      | ok o => exact ⟨e, List.mem_append_left _ he, hspoils⟩

namespace Foretells

theorem refl (m : Parse α) (p : Nat) : x.Foretells Eq m m p := Tells.refl Outcome.Alike.refl _

theorem bind {m : Parse α} {m' : Parse α'} {k : α → Parse β} {k' : α' → Parse β'}
    (hm : x.Foretells R m m' p) (hk : ∀ a b q, R a b → x.Foretells S (k a) (k' b) q) :
    x.Foretells S (m >>= k) (m' >>= k') p := by
  unfold Foretells at hm
  cases hmp : m p with
  | error h =>
    rw [hmp] at hm
    rw [Foretells, Parse.bind_of_error hmp]
    generalize hmp' : m' p = y at hm
    cases hm with
    | void hvoid => exact .void hvoid
    | error h =>
      rw [Parse.bind_of_error hmp']
      exact .error h
  | ok o =>
    rw [hmp] at hm
    generalize hmp' : m' p = y at hm
    cases hm with
    | void hvoid => exact .void (void_bind (by rw [hmp]; exact hvoid))
    | @ok _ o' h =>
      obtain ⟨result, q, es⟩ := o
      obtain ⟨result', q', es'⟩ := o'
      obtain ⟨hresult, hq, hes⟩ := h
      cases hq
      cases hes
      cases hresult with
      | none =>
        rw [Foretells, Parse.bind_of_none hmp, Parse.bind_of_none hmp']
        exact .ok ⟨.none, rfl, rfl⟩
      | @some a b hab =>
        have hkab : Tells _ _ (k a q) (k' b q) := hk a b q hab
        rw [Foretells, Parse.bind_of_some hmp, Parse.bind_of_some hmp']
        generalize k a q = y at hkab ⊢
        generalize k' b q = y' at hkab ⊢
        cases hkab with
        | @void y y' hvoid =>
          refine .void ?_
          cases y with
          | error h => exact hvoid
          | ok o =>
            obtain ⟨e, he, hspoils⟩ := hvoid
            exact ⟨e, List.mem_append_right _ he, hspoils⟩
        | error h => exact .error h
        | ok h => exact .ok ⟨h.result, h.position, by rw [h.events]⟩

/-- The same for parses with equal results. -/
theorem bind_eq {m m' : Parse α} {k : α → Parse β} {k' : α → Parse β'}
    (hm : x.Foretells Eq m m' p) (hk : ∀ a q, x.Foretells S (k a) (k' a) q) :
    x.Foretells S (m >>= k) (m' >>= k') p :=
  hm.bind fun a _ q h => h ▸ hk a q

theorem look {f : Nat → Except Halt α} {f' : Nat → Except Halt α'}
    (h : Tells x.Halted R (f p) (f' p)) : x.Foretells R (Parse.look f) (Parse.look f') p := by
  unfold Foretells Parse.look
  generalize f p = y at h ⊢
  generalize f' p = y' at h ⊢
  cases h with
  | @void y y' hvoid =>
    refine .void ?_
    cases y with
    | error h => exact hvoid
    | ok a => exact hvoid.elim
  | error h => exact .error h
  | ok h => exact .ok ⟨.some h, rfl, rfl⟩

theorem orDefault {m m' : Parse α} (h : x.Foretells Eq m m' p) (a : α) :
    x.Foretells Eq (m.orDefault a) (m'.orDefault a) p := by
  unfold Foretells Parse.orDefault at *
  generalize m p = y at h ⊢
  generalize m' p = y' at h ⊢
  cases h with
  | @void y y' hvoid =>
    refine .void ?_
    cases y with
    | error h => exact hvoid
    | ok o => exact hvoid
  | error h => exact .error h
  | ok h => rw [h.eq]; exact Tells.refl Outcome.Alike.refl _

theorem between {m m' : Parse α} (h : x.Foretells Eq m m' p) (before : Nat → Event)
    (after : Bool → Nat → Event) :
    x.Foretells Eq (m.between before after) (m'.between before after) p := by
  unfold Foretells Parse.between at *
  generalize m p = y at h ⊢
  generalize m' p = y' at h ⊢
  cases h with
  | @void y y' hvoid =>
    refine .void ?_
    cases y with
    | error h => exact hvoid
    | ok o =>
      obtain ⟨e, he, hspoils⟩ := hvoid
      exact ⟨e, List.mem_cons_of_mem _ (List.mem_append_left _ he), hspoils⟩
  | error h => exact .error h
  | ok h => rw [h.eq]; exact Tells.refl Outcome.Alike.refl _

theorem asOneToken {m m' : Parse α} (h : x.Foretells Eq m m' p) (kind : Bool → TokenKind) :
    x.Foretells Eq (m.asOneToken kind) (m'.asOneToken kind) p := by
  unfold Foretells Parse.asOneToken at *
  generalize m p = y at h ⊢
  generalize m' p = y' at h ⊢
  cases h with
  | @void y y' hvoid =>
    refine .void ?_
    cases y with
    | error h => exact hvoid
    | ok o =>
      -- The tokens are dropped, but no error is.
      obtain ⟨e, he, hspoils⟩ := hvoid
      exact ⟨e, List.mem_append_left _ (List.mem_filter.2 ⟨he, rfl⟩), hspoils⟩
  | error h => exact .error h
  | ok h => rw [h.eq]; exact Tells.refl Outcome.Alike.refl _

theorem iterate {step step' : σ → Parse (ForInStep σ)}
    (hstep : ∀ s p, x.Foretells Eq (step s) (step' s) p) {fuel fuel' : Nat}
    (hfuel : x.Lasts fuel fuel') (s : σ) :
    x.Foretells Eq (Parse.iterate step fuel s) (Parse.iterate step' fuel' s) p := by
  induction fuel generalizing fuel' s p with
  | zero =>
    rcases hfuel with rfl | ⟨hexcused, -⟩
    · exact refl _ p
    · exact .void hexcused
  | succ fuel ih =>
    obtain ⟨fuel', rfl⟩ : ∃ n, fuel' = n + 1 := by
      refine ⟨fuel' - 1, ?_⟩
      rcases hfuel with rfl | ⟨-, hle⟩ <;> omega
    have hless : x.Lasts fuel fuel' :=
      hfuel.imp Nat.succ.inj (And.imp_right Nat.le_of_succ_le_succ)
    rw [Parse.iterate, Parse.iterate]
    apply bind_eq (hstep s p)
    intro y q
    cases y with
    | yield s => exact ih hless s
    | done s => exact refl _ q

theorem replicate {step step' : σ → Parse σ}
    (hstep : ∀ s p, x.Foretells Eq (step s) (step' s) p) (count : Nat) (s : σ) :
    x.Foretells Eq (Parse.replicate step count s) (Parse.replicate step' count s) p := by
  induction count generalizing s p with
  | zero => exact refl _ p
  | succ count ih =>
    rw [Parse.replicate, Parse.replicate]
    exact bind_eq (hstep s p) fun s q => ih s

/-- Where no error spoils an answer, equal answers are foretold. -/
theorem tells (hspoils : ∀ e, ¬ x.Spoils e) {m m' : Parse α} (h : x.Foretells Eq m m' p) :
    Tells x.Halted Eq (m p) (m' p) := by
  unfold Foretells at h
  generalize m p = y at h ⊢
  generalize m' p = y' at h ⊢
  cases h with
  | @void y _ hvoid =>
    cases y with
    | error h => exact .void hvoid
    | ok o =>
      obtain ⟨e, -, he⟩ := hvoid
      exact absurd he (hspoils e)
  | error h => exact .error h
  | ok h => exact .ok h.eq

/-- The second run answers what the first one does, unless that is void. -/
theorem eq {m m' : Parse α} {y : Except Halt (Outcome α)} (h : x.Foretells Eq m m' p)
    (hm : m p = y) (hy : ¬ x.Void y) : m' p = y := by
  unfold Foretells at h
  rw [hm] at h
  generalize m' p = y' at h ⊢
  cases h with
  | void hvoid => exact absurd hvoid hy
  | error h => rfl
  | ok h => rw [h.eq]

end Foretells

end Excuse

/-! ## Comparisons -/

/-- What is compared: which rules, in which scopes.  The scopes differ at most in how deep
productions may be nested. -/
structure Comparison extends Excuse where
  Admits : Rule → Scope → Scope → Prop
  scopes : ∀ {r s s'}, Admits r s s' → ∃ maxDepth, s' = { s with maxDepth }
  part : ∀ {r t s s'}, Admits r s s' → t ∈ r.parts → Admits t s s'
  whitespace : ∀ {r w s s'}, Admits r s s' → s.whitespace = some w → Admits w s s'
  withoutAuto : ∀ {r s s'}, Admits r s s' → Admits r s.withoutAuto s'.withoutAuto
  insideWhitespace : ∀ {r s s'}, Admits r s s' → Admits r s.insideWhitespace s'.insideWhitespace

namespace Comparison

/-- Unless its answer is void, one parse of a rule answers as another one. -/
abbrev Agree (cmp : Comparison) (m m' : Parse Outputs) (p : Nat) : Prop :=
  cmp.Foretells Eq m m' p

/-- Going on from one attempt at a rule foretells going on from another one. -/
def Commits (cmp : Comparison) (r : Rule) (c c' : Commit) : Prop :=
  ∀ {s s'}, cmp.Admits r s s' → ∀ p, cmp.Agree (c s) (c' s') p

/-- One attempt at a rule foretells another one. -/
def Attempts (cmp : Comparison) (r : Rule) (a a' : Attempt) (p : Nat) : Prop :=
  Tells cmp.Halted (Option.Rel (cmp.Commits r)) (a p) (a' p)

/-- What is tried and skipped with some calls foretells what is with others. -/
structure Skips (cmp : Comparison) (calls calls' : Calls) : Prop where
  attempt : ∀ {r s s'}, cmp.Admits r s s' →
    ∀ p, cmp.Attempts r (calls.attempt r) (calls'.attempt r) p
  fuel : cmp.Lasts calls.fuel calls'.fuel

/-- What is parsed with some calls foretells what is with others. -/
def Parses (cmp : Comparison) (calls calls' : Calls) : Prop :=
  ∀ {r s s'}, cmp.Admits r s s' → ∀ p, cmp.Agree (calls.parse r s) (calls'.parse r s') p

/-- What is matched as the token of a rule foretells what is with others. -/
def Matches (cmp : Comparison) (r : Rule) (calls calls' : Calls) : Prop :=
  ∀ t kind, r.token? = some (.rule t kind) → ∀ p,
    Tells cmp.Halted Eq (calls.parse t .silent p) (calls'.parse t .silent p)

/-- Where no error spoils an answer, tokens are matched as rules are parsed. -/
theorem Parses.matches_token {cmp : Comparison} {calls calls' : Calls}
    (hparse : cmp.Parses calls calls') (hadmits : ∀ t, cmp.Admits t .silent .silent)
    (hspoils : ∀ e, ¬ cmp.Spoils e) (r : Rule) : cmp.Matches r calls calls' :=
  fun t _ _ p => (hparse (hadmits t) p).tells hspoils

end Comparison

end Phrase
