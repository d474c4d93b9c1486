import Phrase.Event

/-!
# Parses

A parse starts at a position and, if it ends, answers with a result or a failure, the
position it has reached and the events it has emitted.  A failure does not go back: what was
passed over and emitted stays so.  A parse can also be halted, by a fault or because it was
given too little fuel.

Parses form a monad: the second one starts where the first one has ended, and its events
come behind the first one's.
-/

namespace Phrase

/-- Why a parse has no answer. -/
inductive Halt where
  | fault (f : Fault)
  /-- The fuel did not last. -/
  | exhausted
  deriving DecidableEq, Repr

/-- The answer of a parse. -/
structure Outcome (α : Type) where
  /-- Absent if the parse failed. -/
  result : Option α
  /-- The position reached. -/
  position : Nat
  /-- The events emitted, in order. -/
  events : List Event

/-- A parse, as a function of the position where it starts. -/
def Parse (α : Type) : Type := Nat → Except Halt (Outcome α)

namespace Parse

variable {α β σ : Type}

/-- Outputs a value and does nothing. -/
@[always_inline, inline] protected def pure (a : α) : Parse α := fun p => .ok ⟨some a, p, []⟩

/-- One parse after the other. -/
@[always_inline, inline] protected def bind (m : Parse α) (k : α → Parse β) : Parse β := fun p =>
  match m p with
  | .error h => .error h
  | .ok o =>
    match o.result with
    | none => .ok ⟨none, o.position, o.events⟩
    | some a =>
      match k a o.position with
      | .error h => .error h
      | .ok o' => .ok ⟨o'.result, o'.position, o.events ++ o'.events⟩

@[always_inline]
instance : Monad Parse where
  pure := Parse.pure
  bind := Parse.bind

/-! ## Steps -/

/-- Fails. -/
def fail : Parse α := fun p => .ok ⟨none, p, []⟩

/-- Halts. -/
def halt (h : Halt) : Parse α := fun _ => .error h

/-- Outputs the position. -/
@[inline] def position : Parse Nat := fun p => .ok ⟨some p, p, []⟩

/-- Emits an event. -/
@[inline] def emit (e : Event) : Parse Unit := fun p => .ok ⟨some (), p, [e]⟩

/-- Outputs what a function of the position finds. -/
@[inline] def look (f : Nat → Except Halt α) : Parse α := fun p =>
  match f p with
  | .error h => .error h
  | .ok a => .ok ⟨some a, p, []⟩

/-- Outputs the value of an operation that may be at fault. -/
@[inline] def lift (x : Except Fault α) : Parse α := fun p =>
  match x with
  | .error f => .error (.fault f)
  | .ok a => .ok ⟨some a, p, []⟩

/-- Moves to where a function of the position says. -/
@[inline] def move (f : Nat → Except Fault Nat) : Parse Unit := fun p =>
  match f p with
  | .error e => .error (.fault e)
  | .ok q => .ok ⟨some (), q, []⟩

/-! ## Control -/

/-- Outputs `a` instead of failing. -/
@[inline] def orDefault (m : Parse α) (a : α) : Parse α := fun p =>
  match m p with
  | .error h => .error h
  | .ok o => .ok ⟨some (o.result.getD a), o.position, o.events⟩

/-- Puts the events of a parse between two events; the second one depends on whether the
parse has failed, and where. -/
@[inline] def between (m : Parse α) (before : Nat → Event) (after : Bool → Nat → Event) :
    Parse α := fun p =>
  match m p with
  | .error h => .error h
  | .ok o =>
    .ok ⟨o.result, o.position, before p :: (o.events ++ [after o.result.isSome o.position])⟩

/-- Replaces the tokens of a parse by one over all that it has passed, if that is anything,
and keeps its errors. -/
@[inline] def asOneToken (m : Parse α) (kind : Bool → TokenKind) : Parse α := fun p =>
  match m p with
  | .error h => .error h
  | .ok o =>
    .ok ⟨o.result, o.position, o.events.filter Event.isError ++
      if p < o.position then [.token (kind o.result.isSome) ⟨p, o.position⟩] else []⟩

/-- Repeats a step while it asks for it, at most `fuel` times. -/
def iterate (step : σ → Parse (ForInStep σ)) : Nat → σ → Parse σ
  | 0, _ => halt .exhausted
  | fuel + 1, s => do
    match ← step s with
    | .yield s => iterate step fuel s
    | .done s => return s

/-- Repeats a step this many times. -/
def replicate (step : σ → Parse σ) : Nat → σ → Parse σ
  | 0, s => return s
  | n + 1, s => do
    let s ← step s
    replicate step n s

/-- Whether a parse has an answer that passes a check. -/
def answers (m : Parse α) (p : Nat) (check : Outcome α → Bool) : Bool :=
  match m p with
  | .ok o => check o
  | .error _ => false

/-! ## Lemmas -/

theorem exists_of_answers {m : Parse α} {p : Nat} {check : Outcome α → Bool}
    (h : m.answers p check = true) : ∃ o, m p = .ok o ∧ check o = true := by
  unfold answers at h
  split at h
  · next o ho => exact ⟨o, ho, h⟩
  · cases h

@[simp] theorem pure_apply (a : α) (p : Nat) : (pure a : Parse α) p = .ok ⟨some a, p, []⟩ := rfl

theorem lift_ok (a : α) (p : Nat) : lift (.ok a) p = .ok ⟨some a, p, []⟩ := rfl

theorem look_eq {f : Nat → Except Halt α} {p : Nat} {a : α} (h : f p = .ok a) :
    look f p = .ok ⟨some a, p, []⟩ := by
  rw [look, h]

theorem look_of_error {f : Nat → Except Halt α} {p : Nat} {e : Halt} (h : f p = .error e) :
    look f p = .error e := by
  rw [look, h]

theorem bind_of_some {m : Parse α} {k : α → Parse β} {p q : Nat} {a : α} {es : List Event}
    (h : m p = .ok ⟨some a, q, es⟩) :
    (m >>= k) p = match k a q with
      | .error h => .error h
      | .ok o => .ok ⟨o.result, o.position, es ++ o.events⟩ := by
  show Parse.bind m k p = _
  rw [Parse.bind, h]

/-- Behind a parse that has done nothing but output a value. -/
theorem bind_of_quiet {m : Parse α} {k : α → Parse β} {p : Nat} {a : α}
    (h : m p = .ok ⟨some a, p, []⟩) : (m >>= k) p = k a p := by
  rw [bind_of_some h]
  cases k a p <;> rfl

theorem bind_of_none {m : Parse α} {k : α → Parse β} {p q : Nat} {es : List Event}
    (h : m p = .ok ⟨none, q, es⟩) : (m >>= k) p = .ok ⟨none, q, es⟩ := by
  show Parse.bind m k p = _
  rw [Parse.bind, h]

theorem bind_of_error {m : Parse α} {k : α → Parse β} {p : Nat} {h : Halt}
    (hm : m p = .error h) : (m >>= k) p = .error h := by
  show Parse.bind m k p = _
  rw [Parse.bind, hm]

/-! What has led to an answer. -/

/-- The first parse has failed, or it is followed by the second one. -/
theorem bind_cases {m : Parse α} {k : α → Parse β} {p : Nat} {o : Outcome β}
    (h : (m >>= k) p = .ok o) :
    (∃ q es, m p = .ok ⟨none, q, es⟩ ∧ o = ⟨none, q, es⟩) ∨
    ∃ a q es next, m p = .ok ⟨some a, q, es⟩ ∧ k a q = .ok next ∧
      o = ⟨next.result, next.position, es ++ next.events⟩ := by
  cases hm : m p with
  | error e =>
    rw [bind_of_error hm] at h
    cases h
  | ok first =>
    obtain ⟨result, q, es⟩ := first
    cases result with
    | none =>
      rw [bind_of_none hm] at h
      exact .inl ⟨q, es, rfl, (Except.ok.inj h).symm⟩
    | some a =>
      rw [bind_of_some hm] at h
      cases hk : k a q with
      | error e =>
        rw [hk] at h
        cases h
      | ok next =>
        rw [hk] at h
        exact .inr ⟨a, q, es, next, rfl, hk, (Except.ok.inj h).symm⟩

/-- Where both together have a result, the first parse has one, and so has the second one. -/
theorem bind_some_cases {m : Parse α} {k : α → Parse β} {p r : Nat} {b : β} {es : List Event}
    (h : (m >>= k) p = .ok ⟨some b, r, es⟩) :
    ∃ a q fs gs, m p = .ok ⟨some a, q, fs⟩ ∧ k a q = .ok ⟨some b, r, gs⟩ ∧ es = fs ++ gs := by
  rcases bind_cases h with ⟨_, _, -, ho⟩ | ⟨a, q, fs, ⟨result, position, gs⟩, hm, hk, ho⟩
  · cases ho
  · cases ho
    exact ⟨a, q, fs, gs, hm, hk, rfl⟩

section
variable {m : Parse α} {p : Nat} {o : Outcome α}

theorem orDefault_cases {a : α} (h : m.orDefault a p = .ok o) :
    ∃ o', m p = .ok o' ∧ o = ⟨some (o'.result.getD a), o'.position, o'.events⟩ := by
  unfold orDefault at h
  split at h
  · cases h
  · next o' ho' => exact ⟨o', ho', (Except.ok.inj h).symm⟩

theorem between_cases {before : Nat → Event} {after : Bool → Nat → Event}
    (h : m.between before after p = .ok o) :
    ∃ o', m p = .ok o' ∧ o = ⟨o'.result, o'.position,
      before p :: (o'.events ++ [after o'.result.isSome o'.position])⟩ := by
  unfold between at h
  split at h
  · cases h
  · next o' ho' => exact ⟨o', ho', (Except.ok.inj h).symm⟩

theorem asOneToken_cases {kind : Bool → TokenKind} (h : m.asOneToken kind p = .ok o) :
    ∃ o', m p = .ok o' ∧ o = ⟨o'.result, o'.position, o'.events.filter Event.isError ++
      if p < o'.position then [.token (kind o'.result.isSome) ⟨p, o'.position⟩] else []⟩ := by
  unfold asOneToken at h
  split at h
  · cases h
  · next o' ho' => exact ⟨o', ho', (Except.ok.inj h).symm⟩

end

end Parse

end Phrase
