import Phrase.Proofs.Rule.Stepwise

/-!
# Stacks of cursors

Whoever looks ahead works on a copy of a cursor, or on one that is cut off at some place, and has
the cursor that it was made from take over the position in the end.  Cursors made from each other
are a stack, the innermost one first, and calls work on it in place (`CursorStack.call`): a fault
leaves the stack as it is at that moment.

Whatever calls are made, faults included, the cursors stay in their source, and each one ends in
front of the end of those further out (`CursorStack.Lineage`).  So what is left can always be looked
at, and a position can always be taken over (`CursorStack.calls_keep_lineage`).
-/

namespace Phrase

/-- A call to one of the cursors on a stack, which stands `depth` cursors further out than the
innermost one; or to the stack, to make a cursor from the innermost one or to remove that one. -/
inductive CursorCall where
  | peek (depth : Nat)
  | peekAt (depth offset : Nat)
  | remaining (depth : Nat)
  | slice (depth : Nat) (range : Span)
  | bump (depth : Nat)
  | moveTo (depth position : Nat)
  | partialTo (stop : Nat)
  | copy
  | drop
  /-- The innermost cursor is removed, and the next one moves to its position. -/
  | adopt
  deriving DecidableEq, Repr

/-- What a call answers. -/
inductive CursorAnswer where
  | unit (u : Option Nat)
  | units (us : List Nat)
  | done
  deriving DecidableEq, Repr

/-- Cursors made from each other. -/
structure CursorStack where
  innermost : Cursor
  outer : List Cursor

namespace CursorStack

/-! ## Calls -/

/-- All cursors, the innermost one first. -/
def cursors (t : CursorStack) : List Cursor := t.innermost :: t.outer

/-- Only the cursor at the start of a source. -/
def ofSource (s : Source) : CursorStack := ⟨.ofSource s, []⟩

/-- Puts a cursor in the place of the one at a depth. -/
def put (t : CursorStack) (c : Cursor) : Nat → CursorStack
  | 0 => ⟨c, t.outer⟩
  | depth + 1 => ⟨t.innermost, t.outer.set depth c⟩

/-- Puts a cursor inside of all others. -/
def push (t : CursorStack) (c : Cursor) : CursorStack := ⟨c, t.cursors⟩

/-- Removes the innermost cursor.  The one of the source stays. -/
def pop (t : CursorStack) : CursorStack :=
  match t.outer with
  | [] => t
  | c :: outer => ⟨c, outer⟩

/-- Work on a stack in place. -/
abbrev InPlace := ExceptT Fault (StateM CursorStack)

/-- Works with the cursor at a depth.  If there is none there is nothing to do. -/
def withCursor (depth : Nat) (work : Cursor → InPlace CursorAnswer) : InPlace CursorAnswer := do
  match (← get).cursors[depth]? with
  | some c => work c
  | none => return .done

/-- Asks the cursor at a depth. -/
def ask (depth : Nat) (question : Cursor → Except Fault CursorAnswer) : InPlace CursorAnswer :=
  withCursor depth fun c => MonadExcept.ofExcept (question c)

/-- Moves the cursor at a depth. -/
def move (depth : Nat) (step : Cursor → Except Fault Cursor) : InPlace CursorAnswer :=
  withCursor depth fun c => do
    let c ← MonadExcept.ofExcept (step c)
    modify (·.put c depth)
    return .done

/-- One more than the last index that a machine word holds. -/
def indexLimit : Nat := 0x10000000000000000

/-- The answer of some work on a stack, or its fault, with the stack that it leaves. -/
def InPlace.on (work : InPlace CursorAnswer) (t : CursorStack) :
    Except Fault CursorAnswer × CursorStack :=
  work.run.run t

section
/- What comes of looking ahead so far that the index does not fit into a machine word is left open:
it may be at fault, or go round and see any unit. -/
variable (beyond : Cursor → Nat → Except Fault CursorAnswer)

/-- Makes a call. -/
def call : CursorCall → InPlace CursorAnswer
  | .peek depth => ask depth fun c => (c.readAt 0).map .unit
  | .peekAt depth offset => ask depth fun c =>
    if c.position + offset < indexLimit then (c.readAt offset).map .unit else beyond c offset
  | .remaining depth => ask depth fun c => c.remaining.map .units
  | .slice depth range => ask depth fun c => (c.source.slice range).map .units
  | .bump depth => move depth Cursor.bump
  | .moveTo depth position => move depth (·.moveTo position)
  | .partialTo stop => do
    let c ← MonadExcept.ofExcept ((← get).innermost.partialTo stop)
    modify (·.push c)
    return .done
  | .copy => do
    modify fun t => t.push t.innermost
    return .done
  | .drop => do
    modify pop
    return .done
  | .adopt => do
    let inner := (← get).innermost
    modify pop
    move 0 (·.moveTo inner.position)

/-- The stack behind some calls.  Behind a fault they go on with what it has left. -/
def after (t : CursorStack) (calls : List CursorCall) : CursorStack :=
  calls.foldl (fun t c => ((call beyond c).on t).2) t

/-- What a call asks for: a cursor moves no further than to its end, it is cut off between its
position and its end, a slice lies in the source, and looking ahead needs an index that fits. -/
def Admits (t : CursorStack) : CursorCall → Prop
  | .peekAt depth offset => ∀ c ∈ t.cursors[depth]?,
    c.position + offset < indexLimit ∨ ∃ a, beyond c offset = .ok a
  | .slice depth range => ∀ c ∈ t.cursors[depth]?,
    range.start ≤ range.stop ∧ range.stop ≤ c.source.size
  | .bump depth => ∀ c ∈ t.cursors[depth]?, c.position < c.stop
  | .moveTo depth position => ∀ c ∈ t.cursors[depth]?, position ≤ c.stop
  | .partialTo stop => t.innermost.position ≤ stop ∧ stop ≤ t.innermost.stop
  | .peek _ | .remaining _ | .copy | .drop | .adopt => True

end

/-! ## Lineages -/

/-- All cursors are valid cursors of a source, and none ends behind one further out. -/
structure Lineage (s : Source) (t : CursorStack) : Prop where
  source : ∀ c ∈ t.cursors, c.source = s
  valid : ∀ c ∈ t.cursors, c.Valid
  nested : t.cursors.Pairwise fun inner outer => inner.stop ≤ outer.stop

theorem cursors_put (t : CursorStack) (c : Cursor) (depth : Nat) :
    (t.put c depth).cursors = t.cursors.set depth c := by
  cases depth <;> rfl

theorem lineage_ofSource (s : Source) : Lineage s (ofSource s) where
  source := by simp [cursors, ofSource, Cursor.ofSource]
  valid := by
    simp only [cursors, ofSource, List.mem_singleton, forall_eq]
    exact ⟨Nat.zero_le _, Nat.le_refl _⟩
  nested := List.pairwise_singleton _ _

namespace Lineage

variable {s : Source} {t : CursorStack} {c : Cursor} {depth p : Nat}

theorem at_depth (h : Lineage s t) (hc : t.cursors[depth]? = some c) :
    c.source = s ∧ c.Valid :=
  have hmem := List.mem_of_getElem? hc
  ⟨h.source c hmem, h.valid c hmem⟩

/-- A cursor that moves keeps its end. -/
theorem put (h : Lineage s t) (hc : t.cursors[depth]? = some c) (hp : p ≤ c.stop) :
    Lineage s (t.put { c with position := p } depth) := by
  obtain ⟨hsource, hvalid⟩ := h.at_depth hc
  have hstops : (t.put { c with position := p } depth).cursors.map Cursor.stop =
      t.cursors.map Cursor.stop := by
    obtain ⟨hdepth, rfl⟩ := List.getElem?_eq_some_iff.1 hc
    have hlength : depth < (t.cursors.map Cursor.stop).length := by rwa [List.length_map]
    have hstop : (t.cursors.map Cursor.stop)[depth] = t.cursors[depth].stop := List.getElem_map _
    rw [cursors_put, List.map_set]
    show (t.cursors.map Cursor.stop).set depth t.cursors[depth].stop = _
    rw [← hstop, List.set_getElem_self]
  have hmem : ∀ d ∈ (t.put { c with position := p } depth).cursors,
      d ∈ t.cursors ∨ d = { c with position := p } := by
    intro d hd
    rw [cursors_put] at hd
    exact List.mem_or_eq_of_mem_set hd
  refine ⟨fun d hd => ?_, fun d hd => ?_, ?_⟩
  · obtain hd | rfl := hmem d hd
    · exact h.source d hd
    · exact hsource
  · obtain hd | rfl := hmem d hd
    · exact h.valid d hd
    · exact ⟨hp, hvalid.stop_le⟩
  · exact List.pairwise_map.1 (hstops ▸ List.pairwise_map.2 h.nested)

/-- A cursor is made from the innermost one. -/
theorem push (h : Lineage s t) (hp : t.innermost.position ≤ p) (hstop : p ≤ t.innermost.stop) :
    Lineage s (t.push { t.innermost with stop := p }) := by
  have hsource : t.innermost.source = s := h.source _ List.mem_cons_self
  have hsize : p ≤ t.innermost.source.size :=
    Nat.le_trans hstop (h.valid _ List.mem_cons_self).stop_le
  refine ⟨List.forall_mem_cons.2 ⟨hsource, h.source⟩,
    List.forall_mem_cons.2 ⟨⟨hp, hsize⟩, h.valid⟩, List.pairwise_cons.2 ⟨fun d hd => ?_, h.nested⟩⟩
  obtain rfl | hd := List.mem_cons.1 hd
  · exact hstop
  · exact Nat.le_trans hstop (List.rel_of_pairwise_cons h.nested hd)

theorem pop (h : Lineage s t) : Lineage s t.pop := by
  obtain ⟨inner, outer⟩ := t
  cases outer with
  | nil => exact h
  | cons c outer =>
    exact ⟨(List.forall_mem_cons.1 h.source).2, (List.forall_mem_cons.1 h.valid).2,
      (List.pairwise_cons.1 h.nested).2⟩

/-- The position of the innermost cursor is in front of the end of the next one. -/
theorem position_le_pop (h : Lineage s t) : t.innermost.position ≤ t.pop.innermost.stop := by
  have hinner := (h.valid _ List.mem_cons_self).position_le
  obtain ⟨inner, outer⟩ := t
  cases outer with
  | nil => exact hinner
  | cons c outer => exact Nat.le_trans hinner (List.rel_of_pairwise_cons h.nested List.mem_cons_self)

end Lineage

/-! ## Single calls -/

section
variable {t : CursorStack} {c c' : Cursor} {depth : Nat} {f : Fault}

theorem withCursor_on (hc : t.cursors[depth]? = some c) (work : Cursor → InPlace CursorAnswer) :
    (withCursor depth work).on t = (work c).on t := by
  show InPlace.on (match t.cursors[depth]? with | some c => _ | none => _) t = _
  rw [hc]

theorem withCursor_on_of_none (hc : t.cursors[depth]? = none)
    (work : Cursor → InPlace CursorAnswer) : (withCursor depth work).on t = (.ok .done, t) := by
  show InPlace.on (match t.cursors[depth]? with | some c => _ | none => _) t = _
  rw [hc]
  rfl

theorem ask_on (hc : t.cursors[depth]? = some c) (question : Cursor → Except Fault CursorAnswer) :
    (ask depth question).on t = (question c, t) := by
  rw [ask, withCursor_on hc]
  cases question c <;> rfl

theorem move_on_of_ok (hc : t.cursors[depth]? = some c) {step : Cursor → Except Fault Cursor}
    (hstep : step c = .ok c') : (move depth step).on t = (.ok .done, t.put c' depth) := by
  rw [move, withCursor_on hc, hstep]
  rfl

theorem move_on_of_error (hc : t.cursors[depth]? = some c) {step : Cursor → Except Fault Cursor}
    (hstep : step c = .error f) : (move depth step).on t = (.error f, t) := by
  rw [move, withCursor_on hc, hstep]
  rfl

end

/-- What some work on a stack comes to: it is done and keeps the lineage if the condition holds,
and otherwise it is at fault and leaves the stack as it was. -/
def Keeps (s : Source) (t : CursorStack) (condition : Prop) (work : InPlace CursorAnswer) : Prop :=
  (∃ a t', work.on t = (.ok a, t') ∧ Lineage s t') ∧ condition ∨
    (∃ f, work.on t = (.error f, t)) ∧ ¬ condition

namespace Lineage

variable {s : Source} {t : CursorStack} {depth : Nat}
  (beyond : Cursor → Nat → Except Fault CursorAnswer)

theorem keeps_ask (h : Lineage s t) {question : Cursor → Except Fault CursorAnswer}
    {P : Cursor → Prop} (hquestion : ∀ c, t.cursors[depth]? = some c →
      (∃ a, question c = .ok a) ∧ P c ∨ (∃ f, question c = .error f) ∧ ¬ P c) :
    Keeps s t (∀ c ∈ t.cursors[depth]?, P c) (ask depth question) := by
  cases hc : t.cursors[depth]? with
  | none => exact .inl ⟨⟨_, t, withCursor_on_of_none hc _, h⟩, by simp⟩
  | some c =>
    obtain ⟨⟨a, ha⟩, hP⟩ | ⟨⟨f, hf⟩, hP⟩ := hquestion c hc
    · exact .inl ⟨⟨a, t, by rw [ask_on hc, ha], h⟩, by simpa using hP⟩
    · exact .inr ⟨⟨f, by rw [ask_on hc, hf]⟩, by simpa using hP⟩

/-- Some questions always have an answer. -/
theorem keeps_ask_of_ok (h : Lineage s t) {question : Cursor → Except Fault CursorAnswer}
    (hquestion : ∀ c, t.cursors[depth]? = some c → ∃ a, question c = .ok a) :
    Keeps s t True (ask depth question) := by
  have hask := h.keeps_ask (P := fun _ => True) fun c hc => .inl ⟨hquestion c hc, trivial⟩
  simpa only [implies_true] using hask

theorem keeps_move (h : Lineage s t) {step : Cursor → Except Fault Cursor} {P : Cursor → Prop}
    (hstep : ∀ c, t.cursors[depth]? = some c →
      (∃ p ≤ c.stop, step c = .ok { c with position := p }) ∧ P c ∨
        (∃ f, step c = .error f) ∧ ¬ P c) :
    Keeps s t (∀ c ∈ t.cursors[depth]?, P c) (move depth step) := by
  cases hc : t.cursors[depth]? with
  | none => exact .inl ⟨⟨_, t, withCursor_on_of_none hc _, h⟩, by simp⟩
  | some c =>
    obtain ⟨⟨p, hp, hok⟩, hP⟩ | ⟨⟨f, hf⟩, hP⟩ := hstep c hc
    · exact .inl ⟨⟨_, _, move_on_of_ok hc hok, h.put hc hp⟩, by simpa using hP⟩
    · exact .inr ⟨⟨f, move_on_of_error hc hf⟩, by simpa using hP⟩

/-- A call keeps the lineage, and it is at fault exactly if it asks for what is not there.  A fault
leaves the stack in front of the call: only `adopt` changes it before a condition is checked, and
that condition holds. -/
theorem keeps_call (h : Lineage s t) (c : CursorCall) :
    Keeps s t (t.Admits beyond c) (call beyond c) := by
  cases c with
  | peek depth =>
    refine h.keeps_ask_of_ok fun c hc => ?_
    rw [Cursor.readAt_eq (h.at_depth hc).2.stop_le]
    exact ⟨_, rfl⟩
  | peekAt depth offset =>
    refine h.keeps_ask fun c hc => ?_
    split
    · next hlt =>
      rw [Cursor.readAt_eq (h.at_depth hc).2.stop_le]
      exact .inl ⟨⟨_, rfl⟩, .inl hlt⟩
    · next hle =>
      cases beyond c offset with
      | ok a => exact .inl ⟨⟨a, rfl⟩, .inr ⟨a, rfl⟩⟩
      | error f => exact .inr ⟨⟨f, rfl⟩, by simp [hle]⟩
  | remaining depth =>
    refine h.keeps_ask_of_ok fun c hc => ?_
    rw [Cursor.remaining_eq (h.at_depth hc).2]
    exact ⟨_, rfl⟩
  | slice depth range =>
    refine h.keeps_ask fun c _ => ?_
    rw [Source.slice]
    split
    · next hin => exact .inl ⟨⟨_, rfl⟩, hin⟩
    · next hout => exact .inr ⟨⟨_, rfl⟩, hout⟩
  | bump depth =>
    refine h.keeps_move fun c _ => ?_
    rw [Cursor.bump]
    split
    · next hlt => exact .inl ⟨⟨_, hlt, rfl⟩, hlt⟩
    · next hend => exact .inr ⟨⟨_, rfl⟩, hend⟩
  | moveTo depth position =>
    refine h.keeps_move fun c _ => ?_
    rw [Cursor.moveTo]
    split
    · next hle => exact .inl ⟨⟨_, hle, rfl⟩, hle⟩
    · next hout => exact .inr ⟨⟨_, rfl⟩, hout⟩
  | partialTo stop =>
    by_cases hin : t.innermost.position ≤ stop ∧ stop ≤ t.innermost.stop
    · have hcut : t.innermost.partialTo stop = .ok { t.innermost with stop } := if_pos hin
      refine .inl ⟨⟨.done, t.push { t.innermost with stop }, ?_, h.push hin.1 hin.2⟩, hin⟩
      show InPlace.on (MonadExcept.ofExcept (t.innermost.partialTo stop) >>= fun c => _) t = _
      rw [hcut]
      rfl
    · refine .inr ⟨⟨.partialOutside stop t.innermost.position t.innermost.stop, ?_⟩, hin⟩
      show InPlace.on (MonadExcept.ofExcept (t.innermost.partialTo stop) >>= fun c => _) t = _
      rw [Cursor.partialTo, if_neg hin]
      rfl
  | copy =>
    have hinner := h.valid _ List.mem_cons_self
    exact .inl ⟨⟨_, _, rfl, h.push hinner.position_le (Nat.le_refl _)⟩, trivial⟩
  | drop => exact .inl ⟨⟨_, _, rfl, h.pop⟩, trivial⟩
  | adopt =>
    have hle : t.innermost.position ≤ t.pop.innermost.stop := h.position_le_pop
    have hmove : (move 0 (·.moveTo t.innermost.position)).on t.pop = (.ok .done,
        t.pop.put { t.pop.innermost with position := t.innermost.position } 0) :=
      move_on_of_ok rfl (Cursor.moveTo_eq hle)
    exact .inl ⟨⟨_, _, hmove, h.pop.put rfl hle⟩, trivial⟩

/-- Calls keep the lineage, faults or not. -/
theorem after (h : Lineage s t) (calls : List CursorCall) :
    Lineage s (t.after beyond calls) := by
  induction calls generalizing t with
  | nil => exact h
  | cons c calls ih =>
    show Lineage s (CursorStack.after beyond ((call beyond c).on t).2 calls)
    obtain ⟨⟨a, t', hrun, ht'⟩, -⟩ | ⟨⟨f, hrun⟩, -⟩ := h.keeps_call beyond c
    · rw [hrun]
      exact ih ht'
    · rw [hrun]
      exact ih h

/-- Looking ahead is indexing what is left. -/
theorem looks (h : Lineage s t) {c : Cursor} (hc : t.cursors[depth]? = some c) :
    ∃ us, (call beyond (.remaining depth)).on t = (.ok (.units us), t) ∧
      ((call beyond (.peek depth)).on t = (.ok (.unit c.peek), t) ∧ c.peek = us[0]?) ∧
      ∀ k, c.position + k < indexLimit →
        (call beyond (.peekAt depth k)).on t = (.ok (.unit (c.peekAt k)), t) ∧
          c.peekAt k = us[k]? := by
  have hvalid : c.Valid := (h.at_depth hc).2
  obtain ⟨us, hrest⟩ : ∃ us, c.remaining = .ok us := ⟨_, c.remaining_eq hvalid⟩
  have hread : ∀ k, c.readAt k = .ok (c.peekAt k) := Cursor.readAt_eq hvalid.stop_le
  have hpeek : ∀ k, c.peekAt k = us[k]? := Cursor.peekAt_eq_getElem? hrest
  refine ⟨us, ?_, ⟨?_, hpeek 0⟩, fun k hk => ⟨?_, hpeek k⟩⟩
  · rw [call, ask_on hc, hrest]
    rfl
  · rw [call, ask_on hc, hread]
    rfl
  · rw [call, ask_on hc, if_pos hk, hread]
    rfl

/-- Whatever cursor is further in than another one, the other one can take over its position. -/
theorem adopts (h : Lineage s t) : t.cursors.Pairwise fun inner outer =>
    outer.moveTo inner.position = .ok { outer with position := inner.position } :=
  h.nested.imp_of_mem fun hinner _ hstop =>
    Cursor.moveTo_eq (Nat.le_trans (h.valid _ hinner).position_le hstop)

end Lineage

/-- Whatever calls are made on the stack that starts with the cursor of a source: all cursors stand
in front of their ends in the source, and none ends behind one further out.  So each one can show
what is left, which is what it sees when it looks ahead, and can hand its position on to those
further out.  A call is at fault exactly if it asks for what is not there, and then the stack is
left as it was. -/
theorem calls_keep_lineage (beyond : Cursor → Nat → Except Fault CursorAnswer) (s : Source)
    (calls : List CursorCall) :
    let t := (ofSource s).after beyond calls
    Lineage s t ∧
      (∀ depth c, t.cursors[depth]? = some c → ∃ us,
        (call beyond (.remaining depth)).on t = (.ok (.units us), t) ∧
        ((call beyond (.peek depth)).on t = (.ok (.unit c.peek), t) ∧ c.peek = us[0]?) ∧
        ∀ k, c.position + k < indexLimit →
          (call beyond (.peekAt depth k)).on t = (.ok (.unit (c.peekAt k)), t) ∧
            c.peekAt k = us[k]?) ∧
      (t.cursors.Pairwise fun inner outer =>
        outer.moveTo inner.position = .ok { outer with position := inner.position }) ∧
      ∀ c, (∃ a t', (call beyond c).on t = (.ok a, t')) ∧ t.Admits beyond c ∨
        (∃ f, (call beyond c).on t = (.error f, t)) ∧ ¬ t.Admits beyond c := by
  have h : Lineage s ((ofSource s).after beyond calls) := (lineage_ofSource s).after beyond calls
  refine ⟨h, fun depth c hc => h.looks beyond hc, h.adopts, fun c => ?_⟩
  obtain ⟨⟨a, t', hrun, -⟩, hadmits⟩ | hfault := h.keeps_call beyond c
  · exact .inl ⟨⟨a, t', hrun⟩, hadmits⟩
  · exact .inr hfault

/-- A cursor that is cut off keeps its place in the source, and its end is where the outer one goes
on.  In between it is copied, and the copy runs into the end. -/
example :
    let source : Source := ⟨.ascii, #[0x61, 0x62, 0x63, 0x64, 0x65], by decide⟩
    let t := (ofSource source).after (fun _ _ => .error .outOfBounds)
      [.bump 0, .partialTo 3, .copy, .bump 0, .bump 0, .bump 0, .adopt, .moveTo 1 4, .adopt]
    t.cursors.map (fun c => (c.position, c.stop)) = [(3, 5)] := by
  decide +kernel

end CursorStack

end Phrase
