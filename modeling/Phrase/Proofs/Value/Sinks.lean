import Phrase.Proofs.Value.Collections
import Phrase.Value.Kind

/-!
# Building containers

A production that builds a container does so in two ways: a rule that repeats another one drives a
sink, and a rule with several outputs calls the production with them.  Both make the same container
of the same items (`ContainerValue.builds_alike`), and what sets and maps become does not depend on
more of the order in which items arrive than it has to (`Container.collections_order_free`).

A kind of values says how items are taken up.  What it starts from is up to an allocator, which
makes the first container of the parse states of one type; the kinds that a grammar can choose have
one for seeds (`ValueKind.container_eq`, `ValueKind.call_eq`).
-/

namespace Phrase

open Value

/-! ## Sinks -/

/-- What is asked of a sink: to make room for items, or to take up the outputs of one
repetition. -/
inductive SinkCall where
  /-- Memory is taken as unbounded: there is room for any number of items. -/
  | reserve (additional : Nat)
  | push (outputs : List Value)

/-- The outputs that a call hands in. -/
def SinkCall.outputs? : SinkCall → Option (List Value)
  | .reserve _ => none
  | .push outputs => some outputs

namespace ValueKind

/-- A sink's container behind a call.  Room is made without changing what the container holds, and
making it never fails, as it would where memory has an end. -/
def answer (kind : ValueKind) (c : Container) : SinkCall → Container
  | .reserve _ => c
  | .push outputs => kind.push c outputs

/-- A sink's container behind calls, one after the other. -/
def drive (kind : ValueKind) (c : Container) (calls : List SinkCall) : Container :=
  calls.foldl kind.answer c

/-- The items that calls push, in order. -/
def pushed (kind : ValueKind) (calls : List SinkCall) : List Value :=
  (calls.filterMap (·.outputs?)).map kind.item

theorem pushed_append_push (kind : ValueKind) (calls more : List SinkCall) (outputs : List Value) :
    kind.pushed (calls ++ .push outputs :: more) =
      kind.pushed calls ++ kind.item outputs :: kind.pushed more := by
  rw [pushed, List.filterMap_append, List.map_append]
  rfl

theorem drive_eq (kind : ValueKind) (c : Container) (calls : List SinkCall) :
    kind.drive c calls = c.addAll (kind.pushed calls) := by
  induction calls generalizing c with
  | nil => rfl
  | cons call calls ih =>
    cases call with
    | reserve additional => exact ih c
    | push outputs => exact ih (kind.push c outputs)

end ValueKind

/-! ## Sets and maps -/

namespace Container

/-- What sets and maps become depends on the calls of their sinks no more than it has to.

A set holds what it held and what was pushed, each once, and finishes into that, sorted.  Two sets
with the same contents, sorted or in order of arrival, finish into the same value if the same items
are pushed, in any order and however often.

A map holds one entry for every key that it held or that was pushed, with the value pushed last,
or else the one it held, and finishes into that, sorted by key.  Two maps with the same contents
finish into the same value if the entries of every single key are pushed in the same order. -/
theorem collections_order_free (kind : ValueKind) :
    (∀ (c : Container) (vs : List Value), c.SetOf vs → ∀ calls : List SinkCall,
      ∃ ws sorted, (kind.drive c calls).SetOf ws ∧
        (∀ v, v ∈ ws ↔ v ∈ vs ∨ v ∈ kind.pushed calls) ∧
        (kind.drive c calls).finish = .set sorted ∧ sorted.Pairwise Before ∧ sorted.Perm ws) ∧
    (∀ (c c' : Container) (vs vs' : List Value), c.SetOf vs → c'.SetOf vs' →
      (∀ v, v ∈ vs ↔ v ∈ vs') → ∀ calls calls' : List SinkCall,
        (∀ v, v ∈ kind.pushed calls ↔ v ∈ kind.pushed calls') →
        (kind.drive c calls).finish = (kind.drive c' calls').finish) ∧
    (∀ (c : Container) (es : List (Value × Value)), c.MapOf es → ∀ calls : List SinkCall,
      ∃ fs sorted, (kind.drive c calls).MapOf fs ∧
        (∀ k v, (k, v) ∈ fs ↔
          (lastValueOf k ((kind.pushed calls).map entryOf)).or (valueOf k es) = some v) ∧
        (kind.drive c calls).finish = .map sorted ∧ (sorted.map (·.1)).Pairwise Before ∧
        sorted.Perm fs) ∧
    ∀ (c c' : Container) (es es' : List (Value × Value)), c.MapOf es → c'.MapOf es' →
      (∀ e, e ∈ es ↔ e ∈ es') → ∀ calls calls' : List SinkCall,
        (∀ k, ((kind.pushed calls).map entryOf).filter (·.1 = k) =
          ((kind.pushed calls').map entryOf).filter (·.1 = k)) →
        (kind.drive c calls).finish = (kind.drive c' calls').finish := by
  simp only [ValueKind.drive_eq]
  refine ⟨fun c vs h calls => ?_, fun c c' vs vs' h h' hsame calls calls' hpushed => ?_,
    fun c es h calls => ?_, fun c c' es es' h h' hsame calls calls' hpushed => ?_⟩
  · obtain ⟨ws, hws, hmem⟩ := h.addAll (kind.pushed calls)
    obtain ⟨sorted, hfinish, hsorted, hperm⟩ := hws.finish
    exact ⟨ws, sorted, hws, hmem, hfinish, hsorted,
      (List.perm_ext_iff_of_nodup (nodup_of_pairwise hsorted) hws.nodup).2 hperm⟩
  · obtain ⟨ws, hws, hmem⟩ := h.addAll (kind.pushed calls)
    obtain ⟨ws', hws', hmem'⟩ := h'.addAll (kind.pushed calls')
    obtain ⟨sorted, hfinish, hsorted, hiff⟩ := hws.finish
    obtain ⟨sorted', hfinish', hsorted', hiff'⟩ := hws'.finish
    have heq : sorted = sorted' := eq_of_mem_iff hsorted hsorted' fun v => by
      rw [hiff, hiff', hmem, hmem', hsame, hpushed]
    rw [hfinish, hfinish', heq]
  · obtain ⟨fs, hfs, hvalue⟩ := h.addAll (kind.pushed calls)
    obtain ⟨sorted, hfinish, hsorted, hall⟩ := hfs.finish
    have hiff : ∀ k v, (k, v) ∈ fs ↔ valueOf k fs = some v :=
      fun k v => mem_iff_valueOf hfs.nodup_keys
    refine ⟨fs, sorted, hfs, fun k v => by rw [hiff, hvalue], hfinish, hsorted, ?_⟩
    refine (List.perm_ext_iff_of_nodup (nodup_of_pairwise hsorted).of_map
      hfs.nodup_keys.of_map).2 fun e => ?_
    rw [mem_iff_valueOf (nodup_of_pairwise hsorted), hall, hiff]
  · obtain ⟨fs, hfs, hvalue⟩ := h.addAll (kind.pushed calls)
    obtain ⟨fs', hfs', hvalue'⟩ := h'.addAll (kind.pushed calls')
    obtain ⟨sorted, hfinish, hsorted, hall⟩ := hfs.finish
    obtain ⟨sorted', hfinish', hsorted', hall'⟩ := hfs'.finish
    have hes : ∀ k, valueOf k es = valueOf k es' := fun k => by
      ext v
      rw [← mem_iff_valueOf h.nodup_keys, ← mem_iff_valueOf h'.nodup_keys, hsame]
    have heq : sorted = sorted' := eq_of_valueOf_eq hsorted hsorted' fun k => by
      rw [hall, hall', hvalue, hvalue', hes, lastValueOf_congr (hpushed k)]
    rw [hfinish, hfinish', heq]

/-- Nested items in another order, one of them twice, pushed to a set in order of arrival and to a
sorted one; and entries of two keys, pushed to two maps. -/
theorem collections_order_free_nested :
    let nested : Value := .tuple [.set [.int 1], .map [(.unit, .sym "a")]]
    let hashed : Container := .hashedSet [.list [.int 2], .int 1]
    let sorted : Container := .sortedSet [.int 1, .list [.int 2]]
    let calls : List SinkCall := [.push [nested], .reserve 7, .push [.int 0]]
    let calls' : List SinkCall := [.push [.int 0], .push [nested], .push [.int 0]]
    let entries : List SinkCall :=
      [.push [.int 1, .sym "a"], .push [.int 2, .sym "b"], .push [.int 1, .sym "c"]]
    let entries' : List SinkCall :=
      [.push [.tuple [.int 2, .sym "b"]], .push [.int 1, .sym "a"], .push [.int 1, .sym "c"]]
    let kind : ValueKind := .hashedSet
    hashed.SetOf [.list [.int 2], .int 1] ∧ sorted.SetOf [.int 1, .list [.int 2]] ∧
      (kind.drive hashed calls).finish = .set [.int 0, .int 1, nested, .list [.int 2]] ∧
      (kind.drive hashed calls).finish = (kind.drive sorted calls').finish ∧
      (Container.hashedMap []).MapOf [] ∧ (Container.sortedMap []).MapOf [] ∧
      (kind.drive (.hashedMap []) entries).finish =
        .map [(.int 1, .sym "c"), (.int 2, .sym "b")] ∧
      (kind.drive (.hashedMap []) entries).finish =
        (kind.drive (.sortedMap []) entries').finish := by
  intro nested hashed sorted calls calls' entries entries' kind
  have hhashed : hashed.SetOf [.list [.int 2], .int 1] := .hashed (by decide +kernel)
  have hsorted : sorted.SetOf [.int 1, .list [.int 2]] := .sorted (by decide +kernel)
  have hempty : (Container.hashedMap []).MapOf [] := .hashed List.nodup_nil
  have hempty' : (Container.sortedMap []).MapOf [] := .sorted .nil
  obtain ⟨-, hsets, -, hmaps⟩ := collections_order_free kind
  refine ⟨hhashed, hsorted, by decide +kernel, hsets _ _ _ _ hhashed hsorted (fun v => ?_) _ _
    (fun v => ?_), hempty, hempty', by decide +kernel,
    hmaps _ _ _ _ hempty hempty' (fun _ => Iff.rfl) _ _ fun k => ?_⟩
  · simp [or_comm]
  · show v ∈ [nested, .int 0] ↔ v ∈ [.int 0, nested, .int 0]
    simp only [List.mem_cons, List.not_mem_nil, or_false]
    tauto
  · show [(Value.int 1, Value.sym "a"), (.int 2, .sym "b"), (.int 1, .sym "c")].filter _ =
      [(Value.int 2, Value.sym "b"), (.int 1, .sym "a"), (.int 1, .sym "c")].filter _
    by_cases hone : Value.int 1 = k
    · subst hone
      rfl
    · by_cases htwo : Value.int 2 = k
      · subst htwo
        rfl
      · simp [hone, htwo]

end Container

/-! ## Containers of a kind -/

namespace ValueKind

/-- The containers that a kind takes items up into. -/
inductive Builds : ValueKind → Container → Prop where
  | list (seeded : Bool) (reversed : List Value) : Builds (.list seeded) (.items reversed)
  | deque (reversed : List Value) : Builds .deque (.items reversed)
  | pairs (reversed : List Value) : Builds .pairs (.items reversed)
  | text (part : TextPart) (s : String) : Builds (.text part) (.text s)
  | sortedSet (seeded : Bool) {vs : List Value} :
      vs.Pairwise Before → Builds (.sortedSet seeded) (.sortedSet vs)
  | hashedSet {vs : List Value} : vs.Nodup → Builds .hashedSet (.hashedSet vs)
  | sortedMap {es : List (Value × Value)} :
      (es.map (·.1)).Pairwise Before → Builds .sortedMap (.sortedMap es)
  | hashedMap {es : List (Value × Value)} :
      (es.map (·.1)).Nodup → Builds .hashedMap (.hashedMap es)

/-- The items of a kind: characters, if it joins the first characters of texts, else all. -/
def Takes : ValueKind → Value → Prop
  | .text .firstChar, v => ∀ s, v.text? = some s → s.length = 1
  | _, _ => True

variable {kind : ValueKind} {c : Container} {v : Value} {vs : List Value} {state : ParseState}

/-- Called with characters, what joins first characters joins all of them. -/
theorem text?_argument {part : TextPart} (hv : (ValueKind.text part).Takes v) :
    ((ValueKind.text part).argument v).text? = v.text? := by
  cases part with
  | whole => rfl
  | firstChar =>
    cases htext : v.text? with
    | none =>
      have hargument : (ValueKind.text .firstChar).argument v = v := by simp only [argument, htext]
      rw [hargument, htext]
    | some s =>
      have hargument : (ValueKind.text .firstChar).argument v =
          .str (String.ofList (s.toList.take 1)) := by simp only [argument, htext]
      have hone : s.toList.length ≤ 1 := Nat.le_of_eq (String.length_toList.trans (hv s htext))
      rw [hargument, List.take_of_length_le hone, String.ofList_toList]
      rfl

/-- Called with an item, a kind takes up that item. -/
theorem Builds.add_argument (h : kind.Builds c) (hv : kind.Takes v) :
    c.add (kind.argument v) = c.add v := by
  cases h with
  | text part s => rw [Container.add, text?_argument hv, Container.add]
  | list | deque | pairs | sortedSet | hashedSet | sortedMap | hashedMap => rfl

/-- Taking up an item leaves a container of the kind. -/
theorem Builds.add (h : kind.Builds c) (v : Value) : kind.Builds (c.add v) := by
  cases h with
  | list seeded => exact .list seeded _
  | deque => exact .deque _
  | pairs => exact .pairs _
  | text part => exact .text part _
  | sortedSet seeded h => exact .sortedSet seeded (pairwise_insertSorted h)
  | hashedSet h => exact .hashedSet (nodup_insertNew h)
  | sortedMap h => exact .sortedMap (pairwise_keys_insertEntrySorted h)
  | hashedMap h => exact .hashedMap (nodup_keys_insertEntryNew h)

theorem Builds.addAll (h : kind.Builds c) (items : List Value) : kind.Builds (c.addAll items) := by
  induction items generalizing c with
  | nil => exact h
  | cons v items ih => exact ih (h.add v)

/-- Called with items, a kind takes up these items. -/
theorem Builds.addAll_arguments (h : kind.Builds c) {items : List Value}
    (hitems : ∀ v ∈ items, kind.Takes v) :
    c.addAll (items.map kind.argument) = c.addAll items := by
  induction items generalizing c with
  | nil => rfl
  | cons v items ih =>
    obtain ⟨hv, hitems⟩ := List.forall_mem_cons.1 hitems
    show (c.add (kind.argument v)).addAll (items.map kind.argument) = (c.add v).addAll items
    rw [h.add_argument hv, ih (h.add v) hitems]

/-- A pair is one item, in two outputs or in one. -/
theorem Builds.item_pair (h : kind.Builds c) (k v : Value) :
    kind.item [k, v] = kind.item [.tuple [k, v]] := by
  cases h <;> rfl

/-- A finished container is passed through. -/
theorem Builds.call_finish (h : kind.Builds c) : kind.call state [c.finish] = c.finish := by
  cases h <;> rfl

/-- None or several outputs are items. -/
theorem Builds.call_of_length_ne_one (h : kind.Builds c) (hlength : vs.length ≠ 1) :
    kind.call state vs = ((kind.container state).addAll (vs.map kind.argument)).finish := by
  match vs, hlength with
  | [], _ => cases h <;> rfl
  | [v], hlength => exact absurd rfl hlength
  | _ :: _ :: _, _ => cases h <;> simp only [call]

/-- A single output never makes use of the state. -/
theorem Builds.call_single (h : kind.Builds c) : kind.call state [v] = kind.call .none [v] := by
  cases h <;> cases v <;> rfl

end ValueKind

/-! ## Container values -/

/-- A container with items behind what it holds: they follow in order in lists, their texts are
joined, sets hold them too, and in maps the last one for each key counts. -/
inductive Container.ExtendsTo : Container → List Value → Value → Prop where
  | list (reversed items : List Value) :
      ExtendsTo (.items reversed) items (.list (reversed.reverse ++ items))
  | text (s : String) (items : List Value) :
      ExtendsTo (.text s) items (.str (s ++ String.join (items.map fun v => v.text?.getD "")))
  | set {c : Container} {vs items sorted : List Value} : c.SetOf vs → sorted.Pairwise Before →
      (∀ v, v ∈ sorted ↔ v ∈ vs ∨ v ∈ items) → ExtendsTo c items (.set sorted)
  | map {c : Container} {es sorted : List (Value × Value)} {items : List Value} :
      c.MapOf es → (sorted.map (·.1)).Pairwise Before →
      (∀ k, valueOf k sorted = (lastValueOf k (items.map entryOf)).or (valueOf k es)) →
      ExtendsTo c items (.map sorted)

namespace Container

variable {c : Container} {vs items : List Value} {es : List (Value × Value)}

theorem addAll_items (reversed items : List Value) :
    (Container.items reversed).addAll items = .items (items.reverse ++ reversed) := by
  induction items generalizing reversed with
  | nil => rfl
  | cons v items ih =>
    rw [List.reverse_cons, List.append_assoc, List.singleton_append]
    exact ih (v :: reversed)

theorem addAll_text (s : String) (items : List Value) : (Container.text s).addAll items =
    .text (s ++ String.join (items.map fun v => v.text?.getD "")) := by
  induction items generalizing s with
  | nil => exact congrArg Container.text String.append_empty.symm
  | cons v items ih =>
    rw [List.map_cons, String.join_cons, ← String.append_assoc]
    exact ih (s ++ v.text?.getD "")

theorem SetOf.extendsTo (h : c.SetOf vs) (items : List Value) :
    c.ExtendsTo items (c.addAll items).finish := by
  obtain ⟨ws, hws, hmem⟩ := h.addAll items
  obtain ⟨sorted, hfinish, hsorted, hiff⟩ := hws.finish
  rw [hfinish]
  exact .set h hsorted fun v => (hiff v).trans (hmem v)

theorem MapOf.extendsTo (h : c.MapOf es) (items : List Value) :
    c.ExtendsTo items (c.addAll items).finish := by
  obtain ⟨fs, hfs, hvalue⟩ := h.addAll items
  obtain ⟨sorted, hfinish, hsorted, hall⟩ := hfs.finish
  rw [hfinish]
  exact .map h hsorted fun k => (hall k).trans (hvalue k)

end Container

theorem ValueKind.Builds.extendsTo {kind : ValueKind} {c : Container} (h : kind.Builds c)
    (items : List Value) : c.ExtendsTo items (c.addAll items).finish := by
  cases h with
  | list _ reversed | deque reversed | pairs reversed =>
    rw [Container.addAll_items, Container.finish, List.reverse_append, List.reverse_reverse]
    exact .list reversed items
  | text part s =>
    rw [Container.addAll_text]
    exact .text s items
  | sortedSet seeded h => exact (Container.SetOf.sorted h).extendsTo items
  | hashedSet h => exact (Container.SetOf.hashed h).extendsTo items
  | sortedMap h => exact (Container.MapOf.sorted h).extendsTo items
  | hashedMap h => exact (Container.MapOf.hashed h).extendsTo items

/-- How a production builds containers of one type: how items are taken up, and, if there is an
allocator, what the first container is made from in the parse states of type `σ`. -/
structure ContainerValue (σ : Type) where
  kind : ValueKind
  allocator? : Option (σ → Container)
  builds_default : kind.Builds (kind.container .none)
  builds_allocated : ∀ allocator, allocator? = some allocator → ∀ s, kind.Builds (allocator s)

namespace ContainerValue

variable {σ : Type}

/-- The first container for a parse state, which is given if it is of the allocator's type. -/
def allocate (b : ContainerValue σ) (state? : Option σ) : Container :=
  match b.allocator?, state? with
  | some allocator, some s => allocator s
  | _, _ => b.kind.container .none

/-- What a sink finishes into behind some calls. -/
def sink (b : ContainerValue σ) (state? : Option σ) (calls : List SinkCall) : Value :=
  (b.kind.drive (b.allocate state?) calls).finish

/-- What a call with outputs makes: a single one is passed through, others are items. -/
def call (b : ContainerValue σ) (state? : Option σ) : List Value → Value
  | [v] => b.kind.call .none [v]
  | vs => ((b.allocate state?).addAll (vs.map b.kind.argument)).finish

theorem builds_allocate (b : ContainerValue σ) (state? : Option σ) :
    b.kind.Builds (b.allocate state?) := by
  unfold allocate
  split
  · next hallocator => exact b.builds_allocated _ hallocator _
  · exact b.builds_default

theorem call_of_length_ne_one (b : ContainerValue σ) (state? : Option σ) {outputs : List Value}
    (h : outputs.length ≠ 1) : b.call state? outputs =
      ((b.allocate state?).addAll (outputs.map b.kind.argument)).finish := by
  match outputs, h with
  | [], _ | _ :: _ :: _, _ => rfl
  | [v], h => exact absurd rfl h

/-- A sink and a call build the same container of the same items.  Both start from the allocated
container, which is made of a state of the allocator's type and is the default one else.  A sink
takes up what is pushed behind what that holds, wherever room is made between; its finished
container is passed through unchanged when it is the only output of a call, in any state.  Called
with none or several items, of the kind's type, the same is built as by a sink that is pushed these
items.  A pair may be pushed as two outputs or as one. -/
theorem builds_alike (b : ContainerValue σ) (state? : Option σ) (calls : List SinkCall) :
    (∀ allocator s, b.allocator? = some allocator → state? = some s →
      b.allocate state? = allocator s) ∧
    (b.allocator? = none ∨ state? = none → b.allocate state? = b.kind.container .none) ∧
    (b.allocate state?).ExtendsTo (b.kind.pushed calls) (b.sink state? calls) ∧
    (∀ other? : Option σ, b.call other? [b.sink state? calls] = b.sink state? calls) ∧
    (∀ outputs : List Value, outputs.length ≠ 1 → (∀ v ∈ outputs, b.kind.Takes v) →
      b.kind.pushed calls = outputs → b.call state? outputs = b.sink state? calls) ∧
    ∀ (k v : Value) (more : List SinkCall),
      b.sink state? (calls ++ .push [k, v] :: more) =
        b.sink state? (calls ++ .push [.tuple [k, v]] :: more) := by
  have hfirst := b.builds_allocate state?
  have hsink : ∀ calls, b.sink state? calls =
      ((b.allocate state?).addAll (b.kind.pushed calls)).finish := fun calls => by
    rw [sink, ValueKind.drive_eq]
  refine ⟨?_, ?_, ?_, fun other? => ?_, ?_, fun k v more => ?_⟩
  · intro allocator s hallocator hstate
    simp only [allocate, hallocator, hstate]
  · intro hnone
    unfold allocate
    split
    · next hallocator =>
      rcases hnone with hnone | hnone
      · rw [hnone] at hallocator
        cases hallocator
      · cases hnone
    · rfl
  · rw [hsink]
    exact hfirst.extendsTo _
  · rw [hsink]
    exact (hfirst.addAll _).call_finish
  · rintro outputs hlength htakes rfl
    rw [b.call_of_length_ne_one state? hlength, hsink, hfirst.addAll_arguments htakes]
  · rw [hsink, hsink, ValueKind.pushed_append_push, ValueKind.pushed_append_push, hfirst.item_pair]

/-- A map that starts with an entry made of the state. -/
theorem builds_alike_hashed_map :
    let b : ContainerValue Nat :=
      { kind := .hashedMap
        allocator? := some fun n => .hashedMap [(.count n, .unit), (.int 2, .unit)]
        builds_default := .hashedMap .nil
        builds_allocated := by
          intro allocator h n
          cases h
          exact .hashedMap (by simp) }
    let calls : List SinkCall :=
      [.reserve 2, .push [.int 2, .sym "a"], .push [.tuple [.int 1, .sym "b"]]]
    let pairs : List Value := [.tuple [.int 2, .sym "a"], .tuple [.int 1, .sym "b"]]
    let finished : Value := .map [(.int 1, .sym "b"), (.int 2, .sym "a"), (.count 7, .unit)]
    b.sink (some 7) calls = finished ∧ b.call none [finished] = finished ∧ pairs.length ≠ 1 ∧
      (∀ v ∈ pairs, b.kind.Takes v) ∧ b.kind.pushed calls = pairs ∧
      b.call (some 7) pairs = finished := by
  intro b calls pairs finished
  have hsink : b.sink (some 7) calls = finished := by decide +kernel
  have htakes : ∀ v ∈ pairs, b.kind.Takes v := fun _ _ => trivial
  obtain ⟨-, -, -, hpass, hcall, -⟩ := b.builds_alike (some 7) calls
  rw [hsink] at hpass hcall
  exact ⟨hsink, hpass none, by decide, htakes, rfl, hcall pairs (by decide) htakes rfl⟩

end ContainerValue

/-! ## The kinds of a grammar -/

/-- The items of a seed. -/
def ParseState.seed? : ParseState → Option (List Value)
  | .seed items => some items
  | _ => Option.none

namespace ValueKind

variable {kind : ValueKind}

/-- Whether a kind starts with the items of a seed. -/
def isSeeded : ValueKind → Bool
  | .list seeded | .sortedSet seeded => seeded
  | _ => false

theorem builds_container (h : kind.Builds (kind.container .none)) (state : ParseState) :
    kind.Builds (kind.container state) := by
  match kind, h with
  | .list true, _ => exact .list true _
  | .sortedSet true, _ => exact .sortedSet true (pairwise_sortSet _)
  | .list false, h | .deque, h | .pairs, h | .text _, h | .sortedSet false, h | .hashedSet, h
  | .sortedMap, h | .hashedMap, h => exact h

/-- The container value that a kind is; the seeded ones have an allocator. -/
def toContainerValue (kind : ValueKind) (h : kind.Builds (kind.container .none)) :
    ContainerValue (List Value) where
  kind := kind
  allocator? := if kind.isSeeded then some fun items => kind.container (.seed items) else none
  builds_default := h
  builds_allocated := by
    intro allocator hallocator items
    split at hallocator
    · cases hallocator
      exact builds_container h _
    · cases hallocator

/-- A kind allocates as the container value does that it is. -/
theorem container_eq (h : kind.Builds (kind.container .none)) (state : ParseState) :
    kind.container state = (kind.toContainerValue h).allocate state.seed? := by
  cases state <;> match kind, h with
    | .list true, _ | .list false, _ | .sortedSet true, _ | .sortedSet false, _ | .deque, _
    | .pairs, _ | .text _, _ | .hashedSet, _ | .sortedMap, _ | .hashedMap, _ => rfl

/-- A kind is called as the container value is. -/
theorem call_eq (h : kind.Builds (kind.container .none)) (state : ParseState)
    (outputs : List Value) :
    kind.call state outputs = (kind.toContainerValue h).call state.seed? outputs := by
  by_cases hlength : outputs.length = 1
  · obtain ⟨v, rfl⟩ := List.length_eq_one_iff.1 hlength
    exact h.call_single
  · rw [h.call_of_length_ne_one hlength, ContainerValue.call_of_length_ne_one _ _ hlength,
      ← container_eq h]
    rfl

end ValueKind

end Phrase
