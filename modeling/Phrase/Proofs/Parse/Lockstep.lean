import Mathlib.Data.List.Forall2
import Phrase.Proofs.Parse.Rule
import Phrase.Proofs.Rule.Characters
import Phrase.Proofs.Rule.Inside

/-!
# Parses in step

Two environments correspond if their positions can be paired so that tokens match, symbols are
found and numbers are read alike at paired positions.  Parses of the same rule then go in step:
both run out of fuel, or both answer with events, results and positions that are paired
(`Lockstep.Alike`).  Parses are put together from steps; here it is shown that what is put
together from parses in step goes in step.
-/

namespace Phrase

/-! ## Corresponding environments -/

/-- A pairing of the positions of two environments that share their productions. -/
structure Correspondence (env env' : Environment) where
  At : Nat → Nat → Prop
  le_stop : ∀ {p p'}, At p p' → p ≤ env.stop ∧ p' ≤ env'.stop
  lt_iff : ∀ {p p' q q'}, At p p' → At q q' → (p < q ↔ p' < q')
  at_stop : At env.stop env'.stop
  production : ∀ n, env'.grammar.production n = env.grammar.production n
  number : ∀ {p p' q q'}, At p p' → At q q' → p ≤ q → ∃ us us',
    env.source.slice ⟨p, q⟩ = .ok us ∧ env'.source.slice ⟨p', q'⟩ = .ok us' ∧
      ∀ (type : IntegerType) radix, type.ofDigits? radix us = type.ofDigits? radix us'
  symbol : ∀ {p p' q q'} table, At p p' → At q q' → p ≤ q →
    Option.Rel (fun found found' => found.1 = found'.1 ∧ At found.2 found'.2)
      (env.findSymbol table ⟨env.source, p, q⟩) (env'.findSymbol table ⟨env'.source, p', q'⟩)
  trailing : ∀ {p p'} (k : CharClass), At p p' →
    (k.matchOne (env.cursor p)).isSome = (k.matchOne (env'.cursor p')).isSome

namespace Correspondence

variable {env env' : Environment} (pairing : Correspondence env env') {p p' q q' : Nat}

include pairing

theorem le_iff (hp : pairing.At p p') (hq : pairing.At q q') : p ≤ q ↔ p' ≤ q' := by
  have := pairing.lt_iff hq hp
  omega

theorem eq_iff (hp : pairing.At p p') (hq : pairing.At q q') : p = q ↔ p' = q' := by
  have := pairing.lt_iff hp hq
  have := pairing.lt_iff hq hp
  omega

end Correspondence

/-- A correspondence with relations between the errors and between the values of two runs, for
the rules, the rules used as tokens and the kinds of values that keep them. -/
structure Lockstep (env env' : Environment) extends Correspondence env env' where
  Kind : ErrorKind → ErrorKind → Prop
  kind_refl : ∀ kind, Kind kind kind
  Admits : Rule → Prop
  /-- The rules that tokens are made of. -/
  Inner : Rule → Prop
  /-- The ways to build values. -/
  Builds : ValueKind → Prop
  /-- What the caller may hand in. -/
  Hands : ParseState → Prop
  Val : Value → Value → Prop
  /-- Related containers. -/
  Held : Container → Container → Prop
  admits_part : ∀ {r s}, Admits r → s ∈ r.parts → Admits s
  admits_production : ∀ {n}, Admits (.production n) ∨ Admits (.recurse n) →
    Admits (env.grammar.production n).rule ∧ Builds (env.grammar.production n).value ∧
      ∀ w, (env.grammar.production n).whitespace = some w → Admits w
  inner : ∀ {r s kind}, Admits r → r.token? = some (.rule s kind) → Inner s
  matched : ∀ {r t p p'}, Admits r → r.token? = some t → (∀ s kind, t ≠ .rule s kind) →
    At p p' → ∃ m m', t.matchUnits? (env.cursor p) = .ok (some m) ∧
      t.matchUnits? (env'.cursor p') = .ok (some m') ∧ m.Alike At Kind m'
  emitted : ∀ {kind width p p'}, Admits (.emit kind width) → At p p' →
    At (min env.stop (p + width)) (min env'.stop (p' + width))
  builds_discard : Builds .discard
  hands_none : Hands .none
  val_default : Val .default .default
  val_int : ∀ n, Val (.int n) (.int n)
  val_pos : ∀ {p p'}, At p p' → Val (.pos p) (.pos p')
  val_lexeme : ∀ {p p' q q'}, At p p' → At q q' → p ≤ q → Val (.lexeme ⟨p, q⟩) (.lexeme ⟨p', q'⟩)
  val_symbol : ∀ {table c v stop}, env.findSymbol table c = some (v, stop) → Val v v
  val_context : ∀ name depth items, Admits .context →
    (items = .unit ∨ ∃ n, items = .count n) →
    Val (.tuple [.sym name, .count depth, items]) (.tuple [.sym name, .count depth, items])
  held_container : ∀ {kind state}, Builds kind → Hands state →
    Held (kind.container state) (kind.container state)
  held_push : ∀ {kind c c' vs vs'}, Builds kind → Held c c' → List.Forall₂ Val vs vs' →
    Held (kind.push c vs) (kind.push c' vs')
  val_finish : ∀ {c c'}, Held c c' → Val c.finish c'.finish
  val_call : ∀ {kind state vs vs'}, Builds kind → Hands state → List.Forall₂ Val vs vs' →
    Val (kind.call state vs) (kind.call state vs')

/-! ## Answers in step -/

/-- Both answers are the lack of fuel, or they are related. -/
inductive InStep (R : α → β → Prop) : Except Halt α → Except Halt β → Prop where
  | exhausted : InStep R (.error .exhausted) (.error .exhausted)
  | ok {a : α} {b : β} : R a b → InStep R (.ok a) (.ok b)

theorem InStep.imp {R S : α → β → Prop} (hRS : ∀ a b, R a b → S a b) {x : Except Halt α}
    {y : Except Halt β} (h : InStep R x y) : InStep S x y := by
  cases h with
  | exhausted => exact .exhausted
  | ok h => exact .ok (hRS _ _ h)

namespace Lockstep

variable {env env' : Environment} {α α' β β' σ : Type}

/-- Events of the same form at paired positions. -/
inductive EventAlike (law : Lockstep env env') : Event → Event → Prop where
  | start (name : String) {p p' : Nat} : law.At p p' →
      law.EventAlike (.start name p) (.start name p')
  | finish (name : String) {p p' : Nat} : law.At p p' →
      law.EventAlike (.finish name p) (.finish name p')
  | cancel (name : String) {p p' : Nat} : law.At p p' →
      law.EventAlike (.cancel name p) (.cancel name p')
  | token (kind : TokenKind) {p p' q q' : Nat} : law.At p p' → law.At q q' → p ≤ q →
      law.EventAlike (.token kind ⟨p, q⟩) (.token kind ⟨p', q'⟩)
  | error {e e' : ParseError} : law.Kind e.kind e'.kind →
      law.At e.range.start e'.range.start → law.At e.range.stop e'.range.stop →
      e.production = e'.production → law.EventAlike (.error e) (.error e')

/-- Outcomes at paired positions, with paired events and related results. -/
structure OutcomeAlike (law : Lockstep env env') (R : α → α' → Nat → Nat → Prop)
    (o : Outcome α) (o' : Outcome α') : Prop where
  position : law.At o.position o'.position
  events : List.Forall₂ law.EventAlike o.events o'.events
  result : Option.Rel (fun a a' => R a a' o.position o'.position) o.result o'.result

/-- Two parses that go in step from two positions on. -/
def Alike (law : Lockstep env env') (m : Parse α) (m' : Parse α') (p p' : Nat)
    (R : α → α' → Nat → Nat → Prop) : Prop :=
  InStep (law.OutcomeAlike R) (m p) (m' p')

/-- Parses in step whose outputs are related. -/
abbrev OutputsAlike (law : Lockstep env env') (m m' : Parse Outputs) (p p' : Nat) : Prop :=
  law.Alike m m' p p' fun vs vs' _ _ => List.Forall₂ law.Val vs vs'

/-- Parses in step whose results do not matter. -/
abbrev Steps (law : Lockstep env env') (m : Parse α) (m' : Parse α') (p p' : Nat) : Prop :=
  law.Alike m m' p p' fun _ _ _ _ => True

/-- Attempts in step: both apply or none does, and going on from them goes in step. -/
def AttemptAlike (law : Lockstep env env') (a a' : Attempt) (scope : Scope) (p p' : Nat) : Prop :=
  InStep (Option.Rel fun commit commit' => law.OutputsAlike (commit scope) (commit' scope) p p')
    (a p) (a' p')

/-- The law admits what is skipped as whitespace, the way to build values, and what the caller
has handed in. -/
structure AdmitsScope (law : Lockstep env env') (scope : Scope) : Prop where
  whitespace : ∀ w, scope.whitespace = some w → law.Admits w
  builds : law.Builds scope.value
  state : law.Hands scope.state

/-! ## Control -/

section
variable {law : Lockstep env env'} {m : Parse α} {m' : Parse α'} {p p' : Nat}
  {R : α → α' → Nat → Nat → Prop} {S : β → β' → Nat → Nat → Prop}

theorem alike_of_eq {o : Outcome α} {o' : Outcome α'} (h : m p = .ok o) (h' : m' p' = .ok o')
    (ho : law.OutcomeAlike R o o') : law.Alike m m' p p' R := by
  rw [Alike, h, h']
  exact .ok ho

theorem alike_pure {a : α} {a' : α'} (hp : law.At p p') (ha : R a a' p p') :
    law.Alike (pure a) (pure a') p p' R :=
  alike_of_eq (Parse.pure_apply a p) (Parse.pure_apply a' p') ⟨hp, .nil, .some ha⟩

theorem alike_fail (hp : law.At p p') :
    law.Alike (Parse.fail : Parse α) (Parse.fail : Parse α') p p' R :=
  .ok ⟨hp, .nil, .none⟩

theorem alike_position (hp : law.At p p') :
    law.Alike Parse.position Parse.position p p' fun a a' q q' =>
      (a = p ∧ q = p) ∧ a' = p' ∧ q' = p' :=
  .ok ⟨hp, .nil, .some ⟨⟨rfl, rfl⟩, rfl, rfl⟩⟩

theorem alike_emit {e e' : Event} (hp : law.At p p') (he : law.EventAlike e e') :
    law.Alike (Parse.emit e) (Parse.emit e') p p' fun _ _ q q' => q = p ∧ q' = p' :=
  .ok ⟨hp, .cons he .nil, .some ⟨rfl, rfl⟩⟩

theorem alike_look {f : Nat → Except Halt α} {f' : Nat → Except Halt α'} (hp : law.At p p')
    (hf : InStep (fun a a' => R a a' p p') (f p) (f' p')) :
    law.Alike (Parse.look f) (Parse.look f') p p' R := by
  rw [Alike, Parse.look, Parse.look]
  generalize f p = x at hf ⊢
  generalize f' p' = y at hf ⊢
  cases hf with
  | exhausted => exact .exhausted
  | ok h => exact .ok ⟨hp, .nil, .some h⟩

theorem alike_lift {a : α} {a' : α'} (hp : law.At p p') (ha : R a a' p p') :
    law.Alike (Parse.lift (.ok a)) (Parse.lift (.ok a')) p p' R :=
  .ok ⟨hp, .nil, .some ha⟩

theorem Alike.bind {k : α → Parse β} {k' : α' → Parse β'} (hm : law.Alike m m' p p' R)
    (hk : ∀ a a' q q', law.At q q' → R a a' q q' → law.Alike (k a) (k' a') q q' S) :
    law.Alike (m >>= k) (m' >>= k') p p' S := by
  show InStep _ (Parse.bind m k p) (Parse.bind m' k' p')
  unfold Alike at hm
  unfold Parse.bind
  generalize m p = x at hm ⊢
  generalize m' p' = y at hm ⊢
  cases hm with
  | exhausted => exact .exhausted
  | @ok o o' h =>
    obtain ⟨result, q, es⟩ := o
    obtain ⟨result', q', es'⟩ := o'
    obtain ⟨hq, hes, hresult⟩ := h
    cases hresult with
    | none => exact .ok ⟨hq, hes, .none⟩
    | @some a a' ha =>
      have hka : InStep _ (k a q) (k' a' q') := hk a a' q q' hq ha
      simp only
      generalize k a q = x at hka ⊢
      generalize k' a' q' = y at hka ⊢
      cases hka with
      | exhausted => exact .exhausted
      | ok h => exact .ok ⟨h.position, List.rel_append hes h.events, h.result⟩

theorem Alike.between (hp : law.At p p') (hm : law.Alike m m' p p' R) (name : String) :
    law.Alike (m.between (.start name) (.close name)) (m'.between (.start name) (.close name))
      p p' R := by
  rw [Alike, Parse.between, Parse.between]
  unfold Alike at hm
  generalize m p = x at hm ⊢
  generalize m' p' = y at hm ⊢
  cases hm with
  | exhausted => exact .exhausted
  | @ok o o' h =>
    obtain ⟨result, q, es⟩ := o
    obtain ⟨result', q', es'⟩ := o'
    obtain ⟨hq, hes, hresult⟩ := h
    have hclose : law.EventAlike (.close name result.isSome q) (.close name result'.isSome q') := by
      cases hresult with
      | none => exact .cancel name hq
      | some _ => exact .finish name hq
    exact .ok ⟨hq, .cons (.start name hp) (List.rel_append hes (.cons hclose .nil)), hresult⟩

theorem EventAlike.isError_iff {e e' : Event} (h : law.EventAlike e e') :
    e.isError = true ↔ e'.isError = true := by
  cases h with
  | start | finish | cancel | token | error => exact Iff.rfl

theorem Alike.asOneToken (hp : law.At p p') (hm : law.Alike m m' p p' R)
    (kind : Bool → TokenKind) : law.Alike (m.asOneToken kind) (m'.asOneToken kind) p p' R := by
  rw [Alike, Parse.asOneToken, Parse.asOneToken]
  unfold Alike at hm
  generalize m p = x at hm ⊢
  generalize m' p' = y at hm ⊢
  cases hm with
  | exhausted => exact .exhausted
  | @ok o o' h =>
    obtain ⟨result, q, es⟩ := o
    obtain ⟨result', q', es'⟩ := o'
    obtain ⟨hq, hes, hresult⟩ := h
    have hsome : result.isSome = result'.isSome := by
      cases hresult with
      | none => rfl
      | some _ => rfl
    have herrors : List.Forall₂ law.EventAlike (es.filter Event.isError)
        (es'.filter Event.isError) := List.rel_filter (fun _ _ h => h.isError_iff) hes
    have hlt := law.lt_iff hp hq
    refine .ok ⟨hq, List.rel_append herrors ?_, hresult⟩
    simp only at hlt ⊢
    by_cases h : p < q
    · rw [if_pos h, if_pos (hlt.1 h), hsome]
      exact .cons (.token _ hp hq (Nat.le_of_lt h)) .nil
    · rw [if_neg h, if_neg fun h' => h (hlt.2 h')]
      exact .nil

theorem Alike.orDefault {T : α → α' → Prop} (hm : law.Alike m m' p p' fun a a' _ _ => T a a')
    {a : α} {a' : α'} (ha : T a a') :
    law.Alike (m.orDefault a) (m'.orDefault a') p p' fun a a' _ _ => T a a' := by
  rw [Alike, Parse.orDefault, Parse.orDefault]
  unfold Alike at hm
  generalize m p = x at hm ⊢
  generalize m' p' = y at hm ⊢
  cases hm with
  | exhausted => exact .exhausted
  | @ok o o' h =>
    obtain ⟨result, q, es⟩ := o
    obtain ⟨result', q', es'⟩ := o'
    obtain ⟨hq, hes, hresult⟩ := h
    refine .ok ⟨hq, hes, .some ?_⟩
    cases hresult with
    | none => exact ha
    | some h => exact h

/-- Both loops go on with related states, or both end with them. -/
inductive ForInAlike (T : σ → σ → Prop) : ForInStep σ → ForInStep σ → Prop where
  | yield {s s' : σ} : T s s' → ForInAlike T (.yield s) (.yield s')
  | done {s s' : σ} : T s s' → ForInAlike T (.done s) (.done s')

/-- Loops go in step if their steps do. -/
theorem alike_iterate {T : σ → σ → Prop} {step step' : σ → Parse (ForInStep σ)}
    (hstep : ∀ s s' q q', law.At q q' → T s s' →
      law.Alike (step s) (step' s') q q' fun x x' _ _ => ForInAlike T x x')
    (fuel : Nat) {s s' : σ} (hp : law.At p p') (hs : T s s') :
    law.Alike (Parse.iterate step fuel s) (Parse.iterate step' fuel s') p p'
      fun s s' _ _ => T s s' := by
  induction fuel generalizing s s' p p' with
  | zero => exact .exhausted
  | succ fuel ih =>
    rw [Parse.iterate, Parse.iterate]
    refine (hstep s s' p p' hp hs).bind fun x x' q q' hq hx => ?_
    cases hx with
    | yield hs => exact ih hq hs
    | done hs => exact alike_pure hq hs

theorem alike_replicate {T : σ → σ → Prop} {step step' : σ → Parse σ}
    (hstep : ∀ s s' q q', law.At q q' → T s s' →
      law.Alike (step s) (step' s') q q' fun s s' _ _ => T s s')
    (count : Nat) {s s' : σ} (hp : law.At p p') (hs : T s s') :
    law.Alike (Parse.replicate step count s) (Parse.replicate step' count s') p p'
      fun s s' _ _ => T s s' := by
  induction count generalizing s s' p p' with
  | zero => exact alike_pure hp hs
  | succ count ih =>
    rw [Parse.replicate, Parse.replicate]
    exact (hstep s s' p p' hp hs).bind fun s s' q q' hq hs => ih hq hs

end

end Lockstep

end Phrase
