import Phrase.Parse.Interpreter
import Phrase.Proofs.Rule.Extent

/-!
# Laws of event streams

An event law says what is asked of the events that a parse emits between the position where
it starts and the position that it reaches, given whether it has a result.  `EventLaw.Ensures`
is the statement about one parse: it stays between its start and the end of reading, breaks no
condition, and keeps the law.  A law that holds of the few streams from which all others are
made is kept by every rule.
-/

namespace Phrase

/-- A parse may be halted for lack of fuel, and it is at fault only where reading is to go on
behind the end of the source. -/
def Environment.Excuses (env : Environment) : Halt → Prop
  | .fault _ => env.source.size < env.stop
  | .exhausted => True

/-- What is asked of events, for the rules that the law admits.  The fields say that it can
be kept: by doing nothing, by one parse behind the other, by tokens and failures, and by what
productions, whitespace and recovery make of the events inside of them. -/
structure EventLaw (env : Environment) where
  Admits : Rule → Prop
  admits_part : ∀ {r s}, Admits r → s ∈ r.parts → Admits s
  admits_production : ∀ {n}, Admits (.production n) ∨ Admits (.recurse n) →
    Admits (env.grammar.production n).rule ∧
      ∀ w, (env.grammar.production n).whitespace = some w → Admits w
  Holds : Bool → Nat → Nat → List Event → Prop
  nil : ∀ p, Holds true p p []
  append : ∀ {b p q r es fs}, Holds true p q es → Holds b q r fs → Holds b p r (es ++ fs)
  token : ∀ {p q} kind, p ≤ q → Holds true p q [.token kind ⟨p, q⟩]
  failed : ∀ {p} (e : ParseError), e.range = ⟨p, p⟩ → Holds false p p [.error e]
  refused : ∀ {p q} kind (e : ParseError), p ≤ e.range.start → e.range.start ≤ e.range.stop →
    e.range.stop ≤ q → Holds false p q [.token kind ⟨p, q⟩, .error e]
  warned : ∀ {p message} (e : ParseError), Admits (.warn message) → e.range = ⟨p, p⟩ →
    Holds true p p [.error e]
  recovered : ∀ {r p q es}, Admits (.recover r) → Holds false p q es → Holds true p q es
  silenced : ∀ {b p q es} kind, Holds b p q es → Holds b p q (es.filter Event.isError ++
    if p < q then [.token kind ⟨p, q⟩] else [])
  bracketed : ∀ {b p q es} name, Holds b p q es → Holds b p q
    (.start name p :: (es ++ [.close name b q]))

namespace EventLaw

variable {env : Environment} {α β σ : Type}

/-- The law that asks for nothing; what a parse ensures by it are the bounds of positions. -/
def bounds (env : Environment) : EventLaw env where
  Admits _ := True
  admits_part _ _ := trivial
  admits_production _ := ⟨trivial, fun _ _ => trivial⟩
  Holds _ _ _ _ := True
  nil _ := trivial
  append _ _ := trivial
  token _ _ := trivial
  failed _ _ := trivial
  refused _ _ _ _ _ := trivial
  warned _ _ _ := trivial
  recovered _ _ := trivial
  silenced _ _ := trivial
  bracketed _ _ := trivial

/-- A parse that starts at `p` stays between `p` and the end of reading, keeps the law, and
has a result that fits, if it has one. -/
def Ensures (law : EventLaw env) (m : Parse α) (p : Nat) (Fits : α → Nat → Prop) : Prop :=
  match m p with
  | .ok o => (p ≤ o.position ∧ o.position ≤ env.stop) ∧
      law.Holds o.result.isSome p o.position o.events ∧
      ∀ a, o.result = some a → Fits a o.position
  | .error h => env.Excuses h

/-- What a parse ensures whatever its result. -/
abbrev Allows (law : EventLaw env) (m : Parse α) (p : Nat) : Prop :=
  law.Ensures m p fun _ _ => True

/-- What an attempt ensures: whoever goes on from it keeps the law. -/
def AllowsAttempt (law : EventLaw env) (a : Attempt) (scope : Scope) (p : Nat) : Prop :=
  match a p with
  | .ok (some commit) => law.Allows (commit scope) p
  | .ok none => True
  | .error h => env.Excuses h

/-- The law admits what is skipped as whitespace. -/
def AdmitsScope (law : EventLaw env) (scope : Scope) : Prop :=
  ∀ w, scope.whitespace = some w → law.Admits w

/-! ## Control -/

section
variable {law : EventLaw env} {m : Parse α} {p q : Nat} {Fits : α → Nat → Prop}
  {Fits' : β → Nat → Prop}

theorem ensures_of_eq {o : Outcome α} (h : m p = .ok o) (hpq : p ≤ o.position)
    (hq : o.position ≤ env.stop) (hheld : law.Holds o.result.isSome p o.position o.events)
    (hfits : ∀ a, o.result = some a → Fits a o.position) : law.Ensures m p Fits := by
  rw [Ensures, h]
  exact ⟨⟨hpq, hq⟩, hheld, hfits⟩

/-- An outcome is between the bounds. -/
theorem Allows.within {o : Outcome α} (h : law.Allows m p) (ho : m p = .ok o) :
    p ≤ o.position ∧ o.position ≤ env.stop := by
  unfold Allows Ensures at h
  rw [ho] at h
  exact h.1

/-- The law holds of an outcome. -/
theorem Allows.held {o : Outcome α} (h : law.Allows m p) (ho : m p = .ok o) :
    law.Holds o.result.isSome p o.position o.events := by
  unfold Allows Ensures at h
  rw [ho] at h
  exact h.2.1

theorem AllowsAttempt.commit {a : Attempt} {scope : Scope} {commit : Commit}
    (h : law.AllowsAttempt a scope p) (hcommit : a p = .ok (some commit)) :
    law.Allows (commit scope) p := by
  unfold AllowsAttempt at h
  rw [hcommit] at h
  exact h

theorem ensures_pure {a : α} (hp : p ≤ env.stop) (ha : Fits a p) :
    law.Ensures (pure a) p Fits :=
  ensures_of_eq (Parse.pure_apply a p) (Nat.le_refl p) hp (law.nil p)
    fun _ h => Option.some.inj h ▸ ha

theorem Ensures.bind {k : α → Parse β} (hm : law.Ensures m p Fits)
    (hk : ∀ a q, p ≤ q → q ≤ env.stop → Fits a q → law.Ensures (k a) q Fits') :
    law.Ensures (m >>= k) p Fits' := by
  unfold Ensures at hm
  cases hmp : m p with
  | error h =>
    rw [hmp] at hm
    rw [Ensures, Parse.bind_of_error hmp]
    exact hm
  | ok o =>
    obtain ⟨result, q, es⟩ := o
    rw [hmp] at hm
    obtain ⟨⟨hpq, hq⟩, hheld, hfits⟩ := hm
    cases result with
    | none =>
      rw [Ensures, Parse.bind_of_none hmp]
      exact ⟨⟨hpq, hq⟩, hheld, fun _ h => by cases h⟩
    | some a =>
      have hka := hk a q hpq hq (hfits a rfl)
      rw [Ensures, Parse.bind_of_some hmp]
      unfold Ensures at hka
      cases hkq : k a q with
      | error h => rw [hkq] at hka; exact hka
      | ok o' =>
        rw [hkq] at hka
        obtain ⟨⟨hqr, hr⟩, hheld', hfits'⟩ := hka
        exact ⟨⟨Nat.le_trans hpq hqr, hr⟩, law.append hheld hheld', hfits'⟩

theorem ensures_position (hp : p ≤ env.stop) :
    law.Ensures Parse.position p fun a q => a = p ∧ q = p :=
  ensures_of_eq (o := ⟨some p, p, []⟩) rfl (Nat.le_refl p) hp (law.nil p)
    fun _ h => ⟨(Option.some.inj h).symm, rfl⟩

theorem ensures_look {f : Nat → Except Halt α} (hp : p ≤ env.stop)
    (hf : match f p with
      | .ok a => Fits a p
      | .error h => env.Excuses h) : law.Ensures (Parse.look f) p Fits := by
  unfold Ensures Parse.look
  cases hfp : f p with
  | ok a =>
    rw [hfp] at hf
    exact ⟨⟨Nat.le_refl p, hp⟩, law.nil p, fun _ h => Option.some.inj h ▸ hf⟩
  | error h =>
    rw [hfp] at hf
    exact hf

theorem ensures_lift {x : Except Fault α} (hp : p ≤ env.stop)
    (hx : match x with
      | .ok a => Fits a p
      | .error _ => env.source.size < env.stop) : law.Ensures (Parse.lift x) p Fits := by
  unfold Ensures Parse.lift
  cases x with
  | ok a => exact ⟨⟨Nat.le_refl p, hp⟩, law.nil p, fun _ h => Option.some.inj h ▸ hx⟩
  | error f => exact hx

theorem Ensures.between (h : law.Ensures m p Fits) (name : String) :
    law.Ensures (m.between (.start name) (.close name)) p Fits := by
  unfold Ensures at h
  rw [Ensures, Parse.between]
  cases hmp : m p with
  | error e => rw [hmp] at h; exact h
  | ok o =>
    rw [hmp] at h
    exact ⟨h.1, law.bracketed name h.2.1, h.2.2⟩

theorem Ensures.asOneToken (h : law.Ensures m p Fits) (kind : Bool → TokenKind) :
    law.Ensures (m.asOneToken kind) p Fits := by
  unfold Ensures at h
  rw [Ensures, Parse.asOneToken]
  cases hmp : m p with
  | error e => rw [hmp] at h; exact h
  | ok o =>
    rw [hmp] at h
    exact ⟨h.1, law.silenced _ h.2.1, h.2.2⟩

theorem Ensures.orDefault {r : Rule} (hr : law.Admits (.recover r)) (h : law.Allows m p)
    (a : α) : law.Allows (m.orDefault a) p := by
  unfold Allows Ensures at h
  rw [Allows, Ensures, Parse.orDefault]
  cases hmp : m p with
  | error e => rw [hmp] at h; exact h
  | ok o =>
    rw [hmp] at h
    obtain ⟨result, q, es⟩ := o
    refine ⟨h.1, ?_, fun _ _ => trivial⟩
    cases result with
    | none => exact law.recovered hr h.2.1
    | some b => exact h.2.1

/-- A loop keeps the law if its step does. -/
theorem allows_iterate {step : σ → Parse (ForInStep σ)}
    (hstep : ∀ s q, q ≤ env.stop → law.Allows (step s) q) (fuel : Nat) (s : σ)
    (hp : p ≤ env.stop) : law.Allows (Parse.iterate step fuel s) p := by
  induction fuel generalizing s p with
  | zero => exact trivial
  | succ fuel ih =>
    rw [Parse.iterate]
    refine (hstep s p hp).bind fun x q _ hq _ => ?_
    cases x with
    | yield s => exact ih s hq
    | done s => exact ensures_pure hq trivial

theorem allows_replicate {step : σ → Parse σ}
    (hstep : ∀ s q, q ≤ env.stop → law.Allows (step s) q) (count : Nat) (s : σ)
    (hp : p ≤ env.stop) : law.Allows (Parse.replicate step count s) p := by
  induction count generalizing s p with
  | zero => exact ensures_pure hp trivial
  | succ count ih =>
    rw [Parse.replicate]
    exact (hstep s p hp).bind fun s q _ hq _ => ih s hq

end

end EventLaw

end Phrase
