import Phrase.Proofs.Parse.Rule

/-!
# What a parse has passed over

The tokens of a parse lie behind each other, without a gap, from where it starts to where it
ends, and so do the productions around them; its errors lie there too, none of them in front
of an earlier one.  This is an event law, so it holds of every rule
(`Environment.parse_covers`).
-/

namespace Phrase

/-! ## Spans behind each other -/

/-- Spans that follow each other without a gap and reach from `p` to `q`. -/
def Span.Tile : Nat → Nat → List Span → Prop
  | p, q, [] => p = q
  | p, q, s :: ss => s.start = p ∧ p ≤ s.stop ∧ Tile s.stop q ss

theorem Span.Tile.append {p q r : Nat} {ss ts : List Span} (hs : Tile p q ss)
    (ht : Tile q r ts) : Tile p r (ss ++ ts) := by
  induction ss generalizing p with
  | nil => obtain rfl : p = q := hs; exact ht
  | cons s ss ih => exact ⟨hs.1, hs.2.1, ih hs.2.2⟩

theorem Span.Tile.le {p q : Nat} {ss : List Span} (h : Tile p q ss) : p ≤ q := by
  induction ss generalizing p with
  | nil => exact Nat.le_of_eq h
  | cons s ss ih => exact Nat.le_trans h.2.1 (ih h.2.2)

theorem Span.Tile.stop_eq_of_append {p q : Nat} {ss : List Span} {s : Span}
    (h : Tile p q (ss ++ [s])) : s.stop = q := by
  induction ss generalizing p with
  | nil => exact h.2.2
  | cons _ _ ih => exact ih h.2.2

/-- The span of a token. -/
def Event.tokenRange? : Event → Option Span
  | .token _ range => some range
  | _ => none

/-- The spans of the tokens of a stream, in order. -/
def tokenRanges (events : List Event) : List Span := events.filterMap Event.tokenRange?

/-- Tokens and productions behind each other from `p` to `q`.  A production starts where the
last token in front of it ends, and is finished or cancelled where the last one inside of it
ends.  Errors may stand anywhere. -/
inductive Layout : Nat → Nat → List Event → Prop where
  | nil (p : Nat) : Layout p p []
  | token {p q r : Nat} {es : List Event} (kind : TokenKind) :
      p ≤ q → Layout q r es → Layout p r (.token kind ⟨p, q⟩ :: es)
  | error {p q : Nat} {es : List Event} (e : ParseError) :
      Layout p q es → Layout p q (.error e :: es)
  | production {p q r : Nat} {inner es : List Event} (name : String) (finished : Bool) :
      Layout p q inner → Layout q r es →
      Layout p r (.start name p :: (inner ++ .close name finished q :: es))

namespace Layout

variable {p q r : Nat} {es fs : List Event}

theorem append (he : Layout p q es) (hf : Layout q r fs) : Layout p r (es ++ fs) := by
  induction he with
  | nil => exact hf
  | token kind h _ ih => exact .token kind h (ih hf)
  | error e _ ih => exact .error e (ih hf)
  | @production p q r inner es name finished hinner _ _ ih =>
    rw [List.cons_append, List.append_assoc, List.cons_append]
    exact .production name finished hinner (ih hf)

theorem filter_isError (p : Nat) (es : List Event) :
    Layout p p (es.filter Event.isError) := by
  induction es with
  | nil => exact .nil p
  | cons e es ih =>
    cases e with
    | error e => exact .error e ih
    | start | finish | cancel | token => exact ih

theorem tile_tokenRanges (h : Layout p q es) : Span.Tile p q (tokenRanges es) := by
  induction h with
  | nil p => rfl
  | token kind h _ ih => exact ⟨rfl, h, ih⟩
  | error e _ ih => exact ih
  | @production p q r inner es name finished _ _ ihinner ih =>
    have hranges : tokenRanges (.start name p :: (inner ++ .close name finished q :: es)) =
        tokenRanges inner ++ tokenRanges es := by
      show tokenRanges (inner ++ _) = _
      rw [tokenRanges, List.filterMap_append]
      cases finished <;> rfl
    rw [hranges]
    exact ihinner.append ih

end Layout

/-! ## Errors behind each other -/

/-- Errors between `p` and `q`, none of which starts in front of the end of an earlier one. -/
def ErrorsFollow : Nat → Nat → List ParseError → Prop
  | p, q, [] => p ≤ q
  | p, q, e :: es => p ≤ e.range.start ∧ e.range.start ≤ e.range.stop ∧
      ErrorsFollow e.range.stop q es

namespace ErrorsFollow

variable {p q r : Nat} {es fs : List ParseError}

theorem le (h : ErrorsFollow p q es) : p ≤ q := by
  induction es generalizing p with
  | nil => exact h
  | cons e es ih => exact Nat.le_trans h.1 (Nat.le_trans h.2.1 (ih h.2.2))

theorem of_le (hqp : r ≤ p) (h : ErrorsFollow p q es) : ErrorsFollow r q es := by
  cases es with
  | nil => exact Nat.le_trans hqp h
  | cons e es => exact ⟨Nat.le_trans hqp h.1, h.2⟩

theorem append (he : ErrorsFollow p q es) (hf : ErrorsFollow q r fs) :
    ErrorsFollow p r (es ++ fs) := by
  induction es generalizing p with
  | nil => exact hf.of_le he
  | cons e es ih => exact ⟨he.1, he.2.1, ih he.2.2⟩

theorem mem (h : ErrorsFollow p q es) {e : ParseError} (he : e ∈ es) :
    p ≤ e.range.start ∧ e.range.start ≤ e.range.stop ∧ e.range.stop ≤ q := by
  induction es generalizing p with
  | nil => cases he
  | cons f fs ih =>
    rcases List.mem_cons.1 he with rfl | he
    · exact ⟨h.1, h.2.1, h.2.2.le⟩
    · have := ih h.2.2 he
      have := h.1
      have := h.2.1
      omega

theorem pairwise (h : ErrorsFollow p q es) :
    es.Pairwise fun e f => e.range.stop ≤ f.range.start := by
  induction es generalizing p with
  | nil => exact List.Pairwise.nil
  | cons e es ih => exact List.Pairwise.cons (fun f hf => (h.2.2.mem hf).1) (ih h.2.2)

end ErrorsFollow

theorem errorsOf_append (es fs : List Event) :
    errorsOf (es ++ fs) = errorsOf es ++ errorsOf fs := by
  rw [errorsOf, List.filterMap_append]
  rfl

theorem ErrorsFollow.behind {p q r : Nat} {es fs : List Event}
    (he : ErrorsFollow p q (errorsOf es)) (hf : ErrorsFollow q r (errorsOf fs)) :
    ErrorsFollow p r (errorsOf (es ++ fs)) := by
  rw [errorsOf_append]
  exact he.append hf

/-- An error where nothing is passed over. -/
theorem ErrorsFollow.of_point {p : Nat} {e : ParseError} (h : e.range = ⟨p, p⟩) :
    ErrorsFollow p p [e] := by
  obtain ⟨_, ⟨_, _⟩, _⟩ := e
  cases h
  exact ⟨Nat.le_refl _, Nat.le_refl _, Nat.le_refl _⟩

theorem errorsOf_filter_isError (es : List Event) :
    errorsOf (es.filter Event.isError) = errorsOf es := by
  unfold errorsOf
  rw [List.filterMap_filter]
  congr 1
  funext e
  cases e <;> rfl

theorem errorsOf_silenced (es : List Event) (kind : TokenKind) (p q : Nat) :
    errorsOf (es.filter Event.isError ++ if p < q then [.token kind ⟨p, q⟩] else []) =
      errorsOf es := by
  have htoken : errorsOf (if p < q then [Event.token kind ⟨p, q⟩] else []) = [] := by
    split <;> rfl
  rw [errorsOf_append, errorsOf_filter_isError, htoken, List.append_nil]

theorem errorsOf_bracketed (es : List Event) (name : String) (b : Bool) (p q : Nat) :
    errorsOf (.start name p :: (es ++ [.close name b q])) = errorsOf es := by
  have hclose : errorsOf [Event.close name b q] = [] := by cases b <;> rfl
  show errorsOf (es ++ _) = _
  rw [errorsOf_append, hclose, List.append_nil]

/-! ## The law -/

section
variable {p q : Nat} {es : List Event}

/-- What has been passed over in silence is one token, if it is anything. -/
theorem Layout.silenced (kind : TokenKind) (h : Layout p q es) :
    Layout p q (es.filter Event.isError ++ if p < q then [.token kind ⟨p, q⟩] else []) := by
  have hpq := h.tile_tokenRanges.le
  refine (Layout.filter_isError p es).append ?_
  split
  · exact .token kind hpq (.nil q)
  · obtain rfl : p = q := by omega
    exact .nil p

theorem ErrorsFollow.silenced (kind : TokenKind) (h : ErrorsFollow p q (errorsOf es)) :
    ErrorsFollow p q (errorsOf
      (es.filter Event.isError ++ if p < q then [.token kind ⟨p, q⟩] else [])) := by
  rw [errorsOf_silenced]
  exact h

theorem ErrorsFollow.bracketed (name : String) (b : Bool) (h : ErrorsFollow p q (errorsOf es)) :
    ErrorsFollow p q (errorsOf (.start name p :: (es ++ [.close name b q]))) := by
  rw [errorsOf_bracketed]
  exact h

end

/-- Tokens and productions lie behind each other, and so do errors. -/
def EventLaw.tiling (env : Environment) : EventLaw env :=
  { EventLaw.bounds env with
    Holds := fun _ p q es => Layout p q es ∧ ErrorsFollow p q (errorsOf es)
    nil := fun p => ⟨.nil p, Nat.le_refl p⟩
    append := fun he hf => ⟨he.1.append hf.1, he.2.behind hf.2⟩
    token := fun kind h => ⟨.token kind h (.nil _), h⟩
    failed := fun e h => ⟨.error e (.nil _), .of_point h⟩
    refused := fun kind e hstart hrange hstop =>
      ⟨.token kind (Nat.le_trans hstart (Nat.le_trans hrange hstop)) (.error e (.nil _)),
        hstart, hrange, hstop⟩
    warned := fun e _ h => ⟨.error e (.nil _), .of_point h⟩
    recovered := fun _ h => h
    silenced := fun kind h => ⟨h.1.silenced kind, h.2.silenced kind⟩
    bracketed := fun {b _ q _} name h =>
      ⟨.production name b h.1 (.nil q), h.2.bracketed name b⟩ }

/-! ## Every rule -/

/-- What is known of an outcome at `p` when reading ends at `stop`. -/
structure Outcome.Covers {α : Type} (o : Outcome α) (p stop : Nat) : Prop where
  /-- The position has not gone back. -/
  le_position : p ≤ o.position
  /-- The position is not behind the end. -/
  position_le : o.position ≤ stop
  /-- The tokens cover what was passed over, each unit once. -/
  tile : Span.Tile p o.position (tokenRanges o.events)
  /-- The errors lie in what was passed over. -/
  errors : ∀ e ∈ errorsOf o.events,
    p ≤ e.range.start ∧ e.range.start ≤ e.range.stop ∧ e.range.stop ≤ o.position
  /-- No error starts in front of the end of an earlier one. -/
  ordered : (errorsOf o.events).Pairwise fun e f => e.range.stop ≤ f.range.start

/-- The events of a parse, laid out. -/
theorem Environment.parse_layout {env : Environment} {n : Nat} {r : Rule} {scope : Scope}
    {p : Nat} {o : Outcome Outputs} (hp : p ≤ env.stop) (ho : env.parse n r scope p = .ok o) :
    Layout p o.position o.events := by
  have hscope : (EventLaw.tiling env).AdmitsScope scope := fun _ _ => trivial
  exact ((EventLaw.parse_allows _ (r := r) trivial hscope hp).held ho).1

theorem EventLaw.Allows.covers {env : Environment} {m : Parse α} {p : Nat} {o : Outcome α}
    (h : (EventLaw.tiling env).Allows m p) (ho : m p = .ok o) : o.Covers p env.stop := by
  obtain ⟨hp, hstop⟩ := h.within ho
  obtain ⟨hlayout, herrors⟩ := h.held ho
  exact ⟨hp, hstop, hlayout.tile_tokenRanges, fun _ he => herrors.mem he, herrors.pairwise⟩

/-- A rule covers what it passes over, whether it is parsed or goes on from an attempt, and
whether it matches or fails. -/
theorem Environment.parse_covers (env : Environment) (n : Nat) (r : Rule) (scope : Scope)
    (p : Nat) (hp : p ≤ env.stop) :
    (∀ o, env.parse n r scope p = .ok o → o.Covers p env.stop) ∧
    (∀ commit o, env.attempt n r p = .ok (some commit) → commit scope p = .ok o →
      o.Covers p env.stop) := by
  have hscope : (EventLaw.tiling env).AdmitsScope scope := fun _ _ => trivial
  refine ⟨fun o ho => ?_, fun commit o hcommit ho => ?_⟩
  · exact (EventLaw.parse_allows _ (r := r) trivial hscope hp).covers ho
  · have h := EventLaw.attempt_allows (EventLaw.tiling env) (n := n) (r := r) trivial hscope hp
    unfold EventLaw.AllowsAttempt at h
    rw [hcommit] at h
    exact h.covers ho

/-- Digits, a space, and digits that are too large for their type: the parse fails behind all
of them. -/
theorem Environment.parse_covers_overflow :
    let env : Environment :=
      ⟨⟨#[], #[]⟩, ⟨.ascii, #[0x31, 0x32, 0x20, 0x33, 0x30, 0x30], by decide⟩, 6⟩
    let scope : Scope :=
      { Scope.outer .none 0 .discard with whitespace := some (.token (.charClass .space)) }
    let r : Rule := .branch (.token (.digits .decimal)) (.integer ⟨false, 8⟩ .decimal)
    0 ≤ env.stop ∧
      (∃ o, env.parse 4 r scope 0 = .ok o ∧ o.result.isNone ∧ o.position = 6 ∧
        o.Covers 0 6) ∧
      ∃ commit o, env.attempt 4 r 0 = .ok (some commit) ∧ commit scope 0 = .ok o ∧
        o.position = 6 ∧ o.Covers 0 6 := by
  intro env scope r
  have hp : 0 ≤ env.stop := Nat.zero_le 6
  obtain ⟨hparse, hfinish⟩ := env.parse_covers 4 r scope 0 hp
  have hrun : (env.parse 4 r scope).answers 0 (fun o =>
      o.result.isNone && o.position == 6) = true := by decide +kernel
  have hattempt : (env.attempt 4 r).answers scope 0 (·.position == 6) = true := by
    decide +kernel
  refine ⟨hp, ?_, ?_⟩
  · obtain ⟨o, ho, hcheck⟩ := Parse.exists_of_answers hrun
    rw [Bool.and_eq_true, beq_iff_eq] at hcheck
    exact ⟨o, ho, hcheck.1, hcheck.2, hparse o ho⟩
  · obtain ⟨commit, o, hcommit, ho, hcheck⟩ := Attempt.exists_of_answers hattempt
    exact ⟨commit, o, hcommit, ho, beq_iff_eq.1 hcheck, hfinish commit o hcommit ho⟩

end Phrase
