import Phrase.Proofs.Parse.LockstepRule
import Phrase.Proofs.Rule.Shift
import Phrase.Sample.IntegerList

/-!
# Parsing at another place

A parse reads the units from its position up to the end of reading, and nothing else: in two
environments that have the same units left, one of them `d` units further on, every rule goes the
same way with all positions moved by `d` (`Environment.shift_invariant`).  What is parsed from a
place on depends neither on what stands in front of it nor on what stands behind the end.

Values are moved as well, as long as the values that the caller has handed in, in symbol tables and
as the first contents of containers, hold no positions of their own.
-/

namespace Phrase

/-! ## Moved outcomes -/

/-- The error that far behind. -/
def ParseError.shift (d : Nat) (e : ParseError) : ParseError := { e with range := e.range.shift d }

/-- The event that far behind. -/
def Event.shift (d : Nat) : Event → Event
  | .start name p => .start name (p + d)
  | .finish name p => .finish name (p + d)
  | .cancel name p => .cancel name (p + d)
  | .token kind range => .token kind (range.shift d)
  | .error e => .error (e.shift d)

/-- The values in the symbol tables of a grammar hold no positions. -/
def Grammar.Placeless (g : Grammar) : Prop := ∀ n, ∀ entry ∈ (g.table n).entries, entry.2.Placeless

/-- The second outcome is the first one, that far behind; so are its outputs, if `Handed` is the
case. -/
structure Outcome.Shifted (d : Nat) (Handed : Prop) (o o' : Outcome Outputs) : Prop where
  position : o'.position = o.position + d
  events : o'.events = o.events.map (·.shift d)
  matched : o'.result.isSome = o.result.isSome
  outputs : Handed → o'.result = o.result.map (·.map (·.shift d))

/-! ## The law -/

theorem eq_map_of_forall₂ {α β : Type} {f : α → β} {xs : List α} {ys : List β}
    (h : List.Forall₂ (fun x y => y = f x) xs ys) : ys = xs.map f := by
  have hmap : List.Forall₂ Eq (xs.map f) ys :=
    List.forall₂_map_left_iff.2 (h.imp fun _ _ hy => hy.symm)
  rw [List.forall₂_eq_eq_eq] at hmap
  exact hmap.symm

theorem outputs_shifted {d : Nat} {Handed : Prop} {vs vs' : Outputs}
    (h : List.Forall₂ (fun v v' => Handed → v' = v.shift d) vs vs') (hhanded : Handed) :
    vs' = vs.map (·.shift d) :=
  eq_map_of_forall₂ (h.imp fun _ _ hv => hv hhanded)

section
variable {env env' : Environment} {p d : Nat}

/-- A position of the first environment and the same one of the second. -/
abbrev Environment.ShiftedAt (env : Environment) (p d q q' : Nat) : Prop :=
  (p ≤ q ∧ q ≤ env.stop) ∧ q' = q + d

variable (h : (env.cursor p).Moved d (env'.cursor (p + d)))
include h

/-- From a later position on, and with less to read, the units left are the same as well. -/
theorem Environment.moved_part {q r : Nat} (hpq : p ≤ q) (hqr : q ≤ r) (hrs : r ≤ env.stop) :
    Cursor.Moved d ⟨env.source, q, r⟩ ⟨env'.source, q + d, r + d⟩ := h.part hpq hqr hrs

theorem Environment.moved_cursor {q : Nat} (hpq : p ≤ q) (hqs : q ≤ env.stop) :
    Cursor.Moved d (env.cursor q) (env'.cursor (q + d)) := by
  have hstop : env'.stop = env.stop + d := h.stop
  rw [cursor, cursor, hstop]
  exact moved_part h hpq hqs (Nat.le_refl _)

theorem Environment.matchUnits?_shifted {t : Token} (ht : ∀ r kind, t ≠ .rule r kind)
    {q q' : Nat} (hq : env.ShiftedAt p d q q') :
    ∃ m m', t.matchUnits? (env.cursor q) = .ok (some m) ∧
      t.matchUnits? (env'.cursor q') = .ok (some m') ∧ m.Alike (env.ShiftedAt p d) Eq m' := by
  obtain ⟨⟨hpq, hqs⟩, rfl⟩ := hq
  obtain ⟨m, hm, hwithin⟩ := t.matchUnits?_within (c := env.cursor q) hqs ht
  refine ⟨m, m.shift d, hm, ?_, ?_⟩
  · rw [t.matchUnits?_moved (moved_cursor h hpq hqs), hm]
    rfl
  · have hbetween : ∀ r, q ≤ r → r ≤ env.stop → env.ShiftedAt p d r (r + d) :=
      fun r hqr hrs => ⟨⟨Nat.le_trans hpq hqr, hrs⟩, rfl⟩
    cases m with
    | ok r => exact hbetween r hwithin.1 hwithin.2
    | error f =>
      obtain ⟨hstart, hrange, hread, hstop⟩ := hwithin
      have hlast := Nat.le_trans hstart hrange
      exact ⟨hbetween _ (Nat.le_trans hlast hread) hstop,
        hbetween _ hstart (Nat.le_trans hrange (Nat.le_trans hread hstop)),
        hbetween _ hlast (Nat.le_trans hread hstop), rfl⟩

theorem Environment.findSymbol_shifted (hgrammar : env'.grammar = env.grammar) (table : Nat)
    {q q' r r' : Nat} (hq : env.ShiftedAt p d q q') (hr : env.ShiftedAt p d r r') (hqr : q ≤ r) :
    Option.Rel (fun found found' => found.1 = found'.1 ∧ env.ShiftedAt p d found.2 found'.2)
      (env.findSymbol table ⟨env.source, q, r⟩) (env'.findSymbol table ⟨env'.source, q', r'⟩) := by
  obtain ⟨⟨hpq, -⟩, rfl⟩ := hq
  obtain ⟨⟨-, hrs⟩, rfl⟩ := hr
  have hmoved := moved_part h hpq hqr hrs
  have hfound : env'.findSymbol table ⟨env'.source, q + d, r + d⟩ =
      (env.findSymbol table ⟨env.source, q, r⟩).map fun found => (found.1, found.2 + d) := by
    rw [findSymbol, findSymbol, hgrammar, SymbolTable.longestKey_moved hmoved]
    simp only [bind, Option.bind, pure]
    cases (env.grammar.table table).longestKey ⟨env.source, q, r⟩ with
    | none => rfl
    | some found =>
      simp only
      cases (env.grammar.table table).entries[found.1]? with
      | none => rfl
      | some entry => exact congrArg some (Prod.ext rfl (Nat.add_right_comm _ _ _))
  rw [hfound]
  cases hs : env.findSymbol table ⟨env.source, q, r⟩ with
  | none => exact .none
  | some found =>
    obtain ⟨hle, hstop⟩ := Environment.findSymbol_le (c := ⟨env.source, q, r⟩) hqr hs
    exact .some ⟨rfl, ⟨Nat.le_trans hpq hle, Nat.le_trans hstop hrs⟩, rfl⟩

/-- Environments with the same units left go in step, one that far behind the other, by a law that
moves values as well where nothing handed in holds positions. -/
def Lockstep.shifted (hgrammar : env'.grammar = env.grammar) {Handed : Prop}
    (hhanded : Handed → env.grammar.Placeless) : Lockstep env env' where
  At := env.ShiftedAt p d
  le_stop := by
    rintro q q' ⟨⟨-, hq⟩, rfl⟩
    exact ⟨hq, Nat.le_trans (Nat.add_le_add_right hq d) (Nat.le_of_eq h.stop.symm)⟩
  lt_iff := by
    rintro q q' r r' ⟨-, rfl⟩ ⟨-, rfl⟩
    exact Nat.add_lt_add_iff_right.symm
  at_stop := ⟨⟨h.le_stop, Nat.le_refl _⟩, h.stop⟩
  production _ := by rw [hgrammar]
  number := by
    rintro q q' r r' ⟨⟨hpq, -⟩, rfl⟩ ⟨⟨-, hrs⟩, rfl⟩ hqr
    obtain ⟨us, hus, hus'⟩ := h.slice hpq hqr hrs
    exact ⟨us, us, hus, hus', fun _ _ => rfl⟩
  symbol table hq hr hqr := Environment.findSymbol_shifted h hgrammar table hq hr hqr
  trailing k hq := by
    obtain ⟨⟨hpq, hqs⟩, rfl⟩ := hq
    rw [k.follows d _ _ (Environment.moved_cursor h hpq hqs), Option.isSome_map]
  Kind := Eq
  kind_refl _ := rfl
  Admits _ := True
  Inner _ := True
  Builds _ := True
  Hands state := Handed → state.Placeless
  Val v v' := Handed → v' = v.shift d
  Held c c' := Handed → c' = c.shift d
  admits_part _ _ := trivial
  admits_production _ := ⟨trivial, trivial, fun _ _ => trivial⟩
  inner _ _ := trivial
  matched _ _ ht hq := Environment.matchUnits?_shifted h ht hq
  emitted := by
    rintro kind width q q' - ⟨⟨hpq, hqs⟩, rfl⟩
    have hstop : env'.stop = env.stop + d := h.stop
    refine ⟨⟨Nat.le_min.2 ⟨h.le_stop, Nat.le_trans hpq (Nat.le_add_right _ _)⟩,
      Nat.min_le_left _ _⟩, ?_⟩
    rw [hstop, Nat.add_right_comm, Nat.add_min_add_right]
  builds_discard := trivial
  hands_none _ := ValueKind.placeless_none
  val_default _ := rfl
  val_int _ _ := rfl
  val_pos := by
    rintro q q' ⟨-, rfl⟩ -
    rfl
  val_lexeme := by
    rintro q q' r r' ⟨-, rfl⟩ ⟨-, rfl⟩ - -
    rfl
  val_symbol := by
    intro table c v stop hfound hhanded_in
    obtain ⟨found, -, hfound⟩ := Option.bind_eq_some_iff.1 hfound
    obtain ⟨entry, hentry, hfound⟩ := Option.bind_eq_some_iff.1 hfound
    cases hfound
    exact (hhanded hhanded_in table entry (Array.mem_of_getElem? hentry) d).symm
  val_context name depth items _ hitems _ := by
    rcases hitems with rfl | ⟨n, rfl⟩ <;> rfl
  held_container _ hstate hhanded := (ValueKind.container_shift (hstate hhanded) _ d).symm
  held_push := by
    intro kind c c' vs vs' _ hc hvs hhanded
    rw [hc hhanded, outputs_shifted hvs hhanded, ValueKind.push_shift]
  val_finish := by
    intro c c' hc hhanded
    rw [hc hhanded, Container.finish_shift]
  val_call := by
    intro kind state vs vs' _ hstate hvs hhanded
    rw [outputs_shifted hvs hhanded, ValueKind.call_shift (hstate hhanded)]

theorem Lockstep.shifted_of_eventAlike {hgrammar : env'.grammar = env.grammar} {Handed : Prop}
    {hhanded : Handed → env.grammar.Placeless} {e e' : Event}
    (he : (shifted h hgrammar hhanded).EventAlike e e') : e' = e.shift d := by
  cases he with
  | start name hp | finish name hp | cancel name hp => rw [hp.2]; rfl
  | token kind hp hq => rw [hp.2, hq.2]; rfl
  | @error e e' hkind hstart hstop hproduction =>
    obtain ⟨kind, ⟨start, stop⟩, production⟩ := e
    obtain ⟨kind', ⟨start', stop'⟩, production'⟩ := e'
    obtain ⟨-, rfl⟩ := hstart
    obtain ⟨-, rfl⟩ := hstop
    cases hkind
    cases hproduction
    rfl

theorem Lockstep.shifted_of_outputsAlike {hgrammar : env'.grammar = env.grammar} {Handed : Prop}
    {hhanded : Handed → env.grammar.Placeless} {m m' : Parse Outputs} {q q' : Nat}
    (hm : (shifted h hgrammar hhanded).OutputsAlike m m' q q') :
    InStep (Outcome.Shifted d Handed) (m q) (m' q') := by
  refine InStep.imp (fun o o' ho => ?_) hm
  obtain ⟨result, r, es⟩ := o
  obtain ⟨result', r', es'⟩ := o'
  obtain ⟨⟨-, hposition⟩, hevents, hresult⟩ := ho
  have hevents' : es' = es.map (·.shift d) :=
    eq_map_of_forall₂ (hevents.imp fun _ _ he => shifted_of_eventAlike h he)
  cases hresult with
  | none => exact ⟨hposition, hevents', rfl, fun _ => rfl⟩
  | some hvs =>
    exact ⟨hposition, hevents', rfl, fun hhanded => congrArg some (outputs_shifted hvs hhanded)⟩

end

/-! ## The interpreter -/

/-- Two environments with one grammar, in one encoding and with the same units left, one of them
`d` units further on: with any fuel and in any scope a rule is parsed the same way, a branch
applies in both or in none and is gone on with the same way, a code point is decoded the same, and
a table finds the same key.  Outputs are moved with the positions in them, if there are no others:
values handed in, which stay as they are, hold none. -/
theorem Environment.shift_invariant {env env' : Environment} {p d : Nat}
    (h : (env.cursor p).Moved d (env'.cursor (p + d))) (hgrammar : env'.grammar = env.grammar) :
    (∀ n r scope, InStep (Outcome.Shifted d (env.grammar.Placeless ∧ scope.state.Placeless))
      (env.parse n r scope p) (env'.parse n r scope (p + d))) ∧
    (∀ n r scope, InStep (Option.Rel fun commit commit' =>
        InStep (Outcome.Shifted d (env.grammar.Placeless ∧ scope.state.Placeless))
          (commit scope p) (commit' scope (p + d)))
      (env.attempt n r p) (env'.attempt n r (p + d))) ∧
    (env'.cursor (p + d)).decode = (env.cursor p).decode ∧
    ∀ {α : Type} (t : SymbolTable α),
      t.lookup (env'.cursor (p + d)) = t.lookup (env.cursor p) := by
  have hat : env.ShiftedAt p d p (p + d) := ⟨⟨Nat.le_refl _, h.le_stop⟩, rfl⟩
  have hhanded : ∀ scope : Scope, env.grammar.Placeless ∧ scope.state.Placeless →
      env.grammar.Placeless := fun _ => And.left
  refine ⟨fun n r scope => ?_, fun n r scope => ?_, h.decode, fun t => t.lookup_moved h⟩
  · let law := Lockstep.shifted h hgrammar (hhanded scope)
    have hscope : law.AdmitsScope scope := ⟨fun _ _ => trivial, trivial, And.right⟩
    have hparse : law.OutputsAlike (env.parse n r scope) (env'.parse n r scope) p (p + d) :=
      (law.keptBy_of_inner (fun _ => trivial) n).parse trivial hscope hat
    exact Lockstep.shifted_of_outputsAlike h hparse
  · let law := Lockstep.shifted h hgrammar (hhanded scope)
    have hscope : law.AdmitsScope scope := ⟨fun _ _ => trivial, trivial, And.right⟩
    have hattempt : law.AttemptAlike (env.attempt n r) (env'.attempt n r) scope p (p + d) :=
      (law.keptBy_of_inner (fun _ => trivial) n).attempt trivial hscope hat
    refine InStep.imp (fun commit? commit?' hcommit => ?_) hattempt
    cases hcommit with
    | none => exact .none
    | some hcommit => exact .some (Lockstep.shifted_of_outputsAlike h hcommit)

/-- Digits in the middle of a longer text are captured as they are where they stand alone. -/
theorem shift_invariant_inside_text :
    let alone : Environment := ⟨Sample.IntegerList.grammar, .ofText .utf8 "42", 2⟩
    let inside : Environment := ⟨Sample.IntegerList.grammar, .ofText .utf8 "7,42;1", 4⟩
    (alone.cursor 0).Moved 2 (inside.cursor 2) ∧ inside.grammar = alone.grammar ∧
      alone.parse 1 (.capture (.digits .decimal)) .silent 0 =
        .ok ⟨some [.lexeme ⟨0, 2⟩], 2, [.token .digits ⟨0, 2⟩]⟩ ∧
      inside.parse 1 (.capture (.digits .decimal)) .silent 2 =
        .ok ⟨some [.lexeme ⟨2, 4⟩], 4, [.token .digits ⟨2, 4⟩]⟩ := by
  intro alone inside
  have hmoved : (alone.cursor 0).Moved 2 (inside.cursor 2) := ⟨rfl, rfl, [0x34, 0x32], rfl, rfl⟩
  have halone : alone.parse 1 (.capture (.digits .decimal)) .silent 0 =
      .ok ⟨some [.lexeme ⟨0, 2⟩], 2, [.token .digits ⟨0, 2⟩]⟩ := by rfl
  have hplaceless : alone.grammar.Placeless ∧ Scope.silent.state.Placeless :=
    ⟨fun _ _ hentry => absurd hentry (Array.not_mem_empty _), ValueKind.placeless_none⟩
  have hshifted := (Environment.shift_invariant hmoved rfl).1 1 (.capture (.digits .decimal))
    .silent
  rw [halone] at hshifted
  refine ⟨hmoved, rfl, halone, ?_⟩
  generalize hinside : inside.parse 1 (.capture (.digits .decimal)) .silent 2 = x
  change InStep _ _ (inside.parse 1 (.capture (.digits .decimal)) .silent 2) at hshifted
  rw [hinside] at hshifted
  cases hshifted with
  | @ok _ o h =>
    obtain ⟨result, position, events⟩ := o
    obtain ⟨rfl, rfl, -, houtputs⟩ := h
    obtain rfl := houtputs hplaceless
    rfl

end Phrase
