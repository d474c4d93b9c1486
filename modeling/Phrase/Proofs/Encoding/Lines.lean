import Mathlib.Data.List.TakeWhile
import Mathlib.Data.Prod.Lex
import Phrase.Location
import Phrase.Proofs.Rule.Units

/-!
# Lines of a source

The lines of a source start with it and behind its line feeds, and their starts are found in
increasing order.  So a place is on the line that starts with the last one of these that is not
behind it, whichever way the starts are searched, and the number of that line is told by the line
feeds in front of the place (`LineIndex.location_exact`).
-/

namespace Phrase

/-! ## Lists -/

section
variable {ps : List Nat} {p q r : Nat}

theorem getLastD_takeWhile_le (ps : List Nat) (p : Nat) :
    (ps.takeWhile (· ≤ p)).getLastD 0 ≤ p := by
  cases hlast : (ps.takeWhile (· ≤ p)).getLast? with
  | none => rw [List.getLastD_eq_getLast?, hlast]; exact Nat.zero_le p
  | some q =>
    have hq := List.mem_takeWhile_imp (List.mem_of_getLast? hlast)
    rw [List.getLastD_eq_getLast?, hlast]
    exact of_decide_eq_true hq

/-- Of increasing numbers, the last one in front of all that are above `q` is the largest one that
is not above `q`. -/
theorem le_getLastD_takeWhile (hps : ps.Pairwise (· < ·)) (hp : p ∈ ps) (hpq : p ≤ q) :
    p ≤ (ps.takeWhile (· ≤ q)).getLastD r := by
  induction ps generalizing r with
  | nil => simp at hp
  | cons a ps ih =>
    obtain ⟨ha, hps⟩ := List.pairwise_cons.1 hps
    have haq : a ≤ q := by
      rcases List.mem_cons.1 hp with rfl | hp
      · exact hpq
      · have := ha p hp
        omega
    rw [List.takeWhile_cons_of_pos (by simpa using haq), List.getLastD_cons]
    rcases List.mem_cons.1 hp with rfl | hp
    · rcases List.mem_cons.1 (List.getLastD_mem_cons (l := ps.takeWhile (· ≤ q)) (a := p))
        with heq | hmem
      · omega
      · have := ha _ ((List.takeWhile_sublist _).subset hmem)
        omega
    · exact ih hps hp

/-- Up to a later place there are at least as many. -/
theorem takeWhile_le_prefix (ps : List Nat) (hpq : p ≤ q) :
    ps.takeWhile (· ≤ p) <+: ps.takeWhile (· ≤ q) := by
  have h : ps.takeWhile (· ≤ p) = (ps.takeWhile (· ≤ q)).takeWhile (· ≤ p) := by
    rw [List.takeWhile_takeWhile]
    congr 1
    funext a
    simp only [decide_eq_true_eq, decide_eq_decide]
    omega
  rw [h]
  exact List.takeWhile_prefix _

end

/-! ## Starts of lines -/

section
variable {us : List Nat} {index p q : Nat}

theorem mem_lineStartsFrom_iff :
    p ∈ lineStartsFrom index us ↔ ∃ i, us[i]? = some lineFeed ∧ p = index + i + 1 := by
  induction us generalizing index with
  | nil => simp [lineStartsFrom]
  | cons u us ih =>
    have hmem : p ∈ lineStartsFrom index (u :: us) ↔
        (u = lineFeed ∧ p = index + 1) ∨ p ∈ lineStartsFrom (index + 1) us := by
      rw [lineStartsFrom]
      split
      · next hu => simp [hu]
      · next hu => simp [hu]
    rw [hmem, ih]
    constructor
    · rintro (⟨rfl, rfl⟩ | ⟨i, hi, rfl⟩)
      · exact ⟨0, rfl, rfl⟩
      · exact ⟨i + 1, hi, by omega⟩
    · rintro ⟨i, hi, rfl⟩
      cases i with
      | zero => exact .inl ⟨by simpa using hi, rfl⟩
      | succ i => exact .inr ⟨i, hi, by omega⟩

theorem lt_of_mem_lineStartsFrom (h : p ∈ lineStartsFrom index us) : index < p := by
  obtain ⟨i, -, rfl⟩ := mem_lineStartsFrom_iff.1 h
  omega

theorem pairwise_lineStartsFrom (us : List Nat) (index : Nat) :
    (lineStartsFrom index us).Pairwise (· < ·) := by
  induction us generalizing index with
  | nil => exact .nil
  | cons u us ih =>
    rw [lineStartsFrom]
    split
    · exact .cons (fun p hp => lt_of_mem_lineStartsFrom hp) (ih (index + 1))
    · exact ih (index + 1)

/-- As many lines start up to a place as there are line feeds in front of it. -/
theorem length_takeWhile_lineStartsFrom :
    ((lineStartsFrom index us).takeWhile (· ≤ q)).length =
      (us.take (q - index)).count lineFeed := by
  induction us generalizing index with
  | nil => simp [lineStartsFrom]
  | cons u us ih =>
    have ih := @ih (index + 1)
    by_cases hq : index + 1 ≤ q
    · obtain ⟨k, rfl⟩ := Nat.exists_eq_add_of_le hq
      have hk : index + 1 + k - index = k + 1 := by omega
      rw [Nat.add_sub_cancel_left] at ih
      rw [lineStartsFrom, hk, List.take_succ_cons]
      split
      · next hu =>
        rw [List.takeWhile_cons_of_pos (by simp), List.length_cons, ih, hu, List.count_cons_self]
      · next hu => rw [ih, List.count_cons_of_ne hu]
    · -- the first start is behind the place, and so are the others
      have hnone : (lineStartsFrom index (u :: us)).takeWhile (· ≤ q) = [] := by
        rw [List.takeWhile_eq_nil_iff]
        intro hpos hle
        have hlt := lt_of_mem_lineStartsFrom (List.getElem_mem hpos)
        have := of_decide_eq_true hle
        simp only [List.get_eq_getElem] at this
        omega
      rw [hnone, show q - index = 0 by omega, List.take_zero]
      rfl

end

theorem length_lineStartsFrom (us : List Nat) (index : Nat) :
    (lineStartsFrom index us).length = us.count lineFeed := by
  induction us generalizing index with
  | nil => rfl
  | cons u us ih =>
    rw [lineStartsFrom]
    split
    · next hu => rw [List.length_cons, ih, hu, List.count_cons_self]
    · next hu => rw [ih, List.count_cons_of_ne hu]

/-! ## Places -/

/-- A place on the line feed of a line break of two units. -/
def Source.InsideBreak (s : Source) (q : Nat) : Prop :=
  0 < q ∧ s.units[q]? = some lineFeed ∧ s.units[q - 1]? = some carriageReturn

instance (s : Source) (q : Nat) : Decidable (s.InsideBreak q) :=
  inferInstanceAs (Decidable (_ ∧ _ ∧ _))

/-- Where a place counts: in front of the line break that it is inside of. -/
def Source.beforeBreak (s : Source) (q : Nat) : Nat := if s.InsideBreak q then q - 1 else q

theorem Source.beforeBreak_bounds (s : Source) (q : Nat) :
    q - 1 ≤ s.beforeBreak q ∧ s.beforeBreak q ≤ q := by
  unfold beforeBreak
  split
  · omega
  · omega

theorem Source.beforeBreak_mono (s : Source) {p q : Nat} (hpq : p ≤ q) :
    s.beforeBreak p ≤ s.beforeBreak q := by
  have hp := s.beforeBreak_bounds p
  have hq := s.beforeBreak_bounds q
  rcases Nat.eq_or_lt_of_le hpq with rfl | hlt
  · exact Nat.le_refl _
  · omega

/-- A location is on the right line: that of the place `q`. -/
structure Location.OnLine (l : Location) (s : Source) (q : Nat) : Prop where
  position_eq : l.position = q
  line_eq : l.line = 1 + (s.units.toList.take q).count lineFeed
  lineBegin_le : l.lineBegin ≤ q
  /-- The line starts with the source or behind a line feed. -/
  begins : l.lineBegin = 0 ∨ 0 < l.lineBegin ∧ s.units[l.lineBegin - 1]? = some lineFeed
  /-- No line feed stands between its start and the place. -/
  unbroken : ∀ i, l.lineBegin ≤ i → i < q → s.units[i]? ≠ some lineFeed

/-- What a search for a number can answer in a list of increasing numbers: where the number is, or
where it could be put in. -/
inductive Searches (ps : List Nat) (q : Nat) : Except Nat Nat → Prop where
  | found {i : Nat} (h : ps[i]? = some q) : Searches ps q (.ok i)
  | missing {k : Nat} (hk : k ≤ ps.length) (hbelow : ∀ p ∈ ps.take k, p < q)
      (habove : ∀ p ∈ ps.drop k, q < p) : Searches ps q (.error k)

namespace LineIndex

variable (s : Source) (counting : Counting) (p q : Nat)

theorem pairwise_starts : (ofSource s).starts.Pairwise (· < ·) :=
  .cons (fun _ hp => lt_of_mem_lineStartsFrom hp) (pairwise_lineStartsFrom _ 0)

theorem mem_starts_iff {r : Nat} :
    r ∈ (ofSource s).starts ↔ r = 0 ∨ 0 < r ∧ s.units[r - 1]? = some lineFeed := by
  rw [show (ofSource s).starts = 0 :: lineStartsFrom 0 s.units.toList from rfl, List.mem_cons,
    mem_lineStartsFrom_iff]
  refine or_congr_right ⟨?_, ?_⟩
  · rintro ⟨i, hi, rfl⟩
    rw [Array.getElem?_toList] at hi
    exact ⟨by omega, by simpa using hi⟩
  · rintro ⟨hr, hi⟩
    exact ⟨r - 1, by rw [Array.getElem?_toList]; exact hi, by omega⟩

/-- The starts up to a place begin with that of the source. -/
theorem takeWhile_starts : (ofSource s).starts.takeWhile (· ≤ q) =
    0 :: (lineStartsFrom 0 s.units.toList).takeWhile (· ≤ q) :=
  List.takeWhile_cons_of_pos (by simp)

theorem lineBegin_mem : ((ofSource s).location counting p).lineBegin ∈ (ofSource s).starts := by
  simp only [location]
  rw [takeWhile_starts, List.getLastD_cons]
  rcases List.mem_cons.1 List.getLastD_mem_cons with heq | hmem
  · rw [heq]
    exact List.mem_cons_self
  · exact List.mem_cons_of_mem _ ((List.takeWhile_sublist _).subset hmem)

theorem onLine : ((ofSource s).location counting p).OnLine s (min p s.size) where
  position_eq := rfl
  line_eq := by
    show ((ofSource s).starts.takeWhile (· ≤ min p s.size)).length = _
    rw [takeWhile_starts, List.length_cons, length_takeWhile_lineStartsFrom, Nat.add_comm]
    rfl
  lineBegin_le := getLastD_takeWhile_le (ofSource s).starts (min p s.size)
  begins := (mem_starts_iff s).1 (lineBegin_mem s counting p)
  unbroken := by
    intro i hi hiq hfeed
    have hmem : i + 1 ∈ (ofSource s).starts :=
      (mem_starts_iff s).2 (.inr ⟨Nat.succ_pos i, hfeed⟩)
    have hle : i + 1 ≤ ((ofSource s).location counting p).lineBegin :=
      le_getLastD_takeWhile (r := 0) (pairwise_starts s) hmem hiq
    omega

end LineIndex

/-! ## Columns -/

section
variable {s : Source} {l : Location} {p q : Nat}

/-- The line break that a place is inside of starts on the line of the place. -/
theorem Location.OnLine.le_beforeBreak (h : l.OnLine s q) : l.lineBegin ≤ s.beforeBreak q := by
  unfold Source.beforeBreak
  split
  · next hbreak =>
    have hle := h.lineBegin_le
    rcases h.begins with hzero | ⟨-, hfeed⟩
    · omega
    · -- the unit in front of the line is a line feed, and the one in front of the place is none
      have hne : l.lineBegin ≠ q := by
        intro heq
        rw [heq, hbreak.2.2] at hfeed
        exact absurd hfeed (by decide)
      omega
  · exact h.lineBegin_le

theorem Location.OnLine.inLine_eq (h : l.OnLine s q) :
    (LineIndex.ofSource s).inLine l.lineBegin q = s.beforeBreak q := by
  have hle := h.le_beforeBreak
  unfold Source.beforeBreak at hle ⊢
  unfold LineIndex.inLine
  by_cases hbreak : s.InsideBreak q
  · have hpos := hbreak.1
    rw [if_pos hbreak] at hle ⊢
    rw [if_pos ⟨by omega, hbreak.2⟩]
  · rw [if_neg hbreak, if_neg]
    rintro ⟨hlt, hunits⟩
    exact hbreak ⟨by omega, hunits⟩

namespace LineIndex

theorem column_units (s : Source) (p : Nat) :
    ((ofSource s).location .units p).column =
      s.beforeBreak (min p s.size) - ((ofSource s).location .units p).lineBegin + 1 := by
  rw [← (onLine s .units p).inLine_eq]
  rfl

/-- A later place is on a later line, or on the same one. -/
theorem line_lt_or_eq (s : Source) (counting : Counting) {p q : Nat} (hpq : p ≤ q) :
    ((ofSource s).location counting p).line < ((ofSource s).location counting q).line ∨
      ((ofSource s).location counting p).line = ((ofSource s).location counting q).line ∧
      ((ofSource s).location counting p).lineBegin =
        ((ofSource s).location counting q).lineBegin := by
  have hstart := takeWhile_le_prefix (ofSource s).starts
    (show min p s.size ≤ min q s.size by omega)
  rcases Nat.lt_or_eq_of_le hstart.length_le with hlt | heq
  · exact .inl hlt
  · refine .inr ⟨heq, ?_⟩
    exact congrArg (List.getLastD · 0) (hstart.eq_of_length heq)

/-- Where on the line a place is decides about its column, and columns go on with the places of a
line: then places come in the order of their lines and columns. -/
theorem monotone_of_column (s : Source) (counting : Counting) (columns : Nat → Nat → Nat)
    (hcolumn : ∀ p, ((ofSource s).location counting p).column =
      columns ((ofSource s).location counting p).lineBegin (s.beforeBreak (min p s.size)))
    (hmono : ∀ b, Monotone (columns b)) :
    Monotone fun p => toLex (((ofSource s).location counting p).line,
      ((ofSource s).location counting p).column) := by
  intro p q hpq
  refine Prod.Lex.toLex_le_toLex.2 ?_
  rcases line_lt_or_eq s counting hpq with hlt | ⟨hline, hbegin⟩
  · exact .inl hlt
  · refine .inr ⟨hline, ?_⟩
    show ((ofSource s).location counting p).column ≤ ((ofSource s).location counting q).column
    rw [hcolumn, hcolumn, hbegin]
    exact hmono _ (s.beforeBreak_mono (by omega))

/-! ## Searching -/

/-- What is not above the number is in front of the place that a search has found. -/
theorem length_takeWhile_of_split {ps : List Nat} {q k : Nat} (hk : k ≤ ps.length)
    (hbelow : ∀ p ∈ ps.take k, p ≤ q) (habove : ∀ p ∈ ps.drop k, q < p) :
    (ps.takeWhile (· ≤ q)).length = k := by
  have hsplit : (ps.take k ++ ps.drop k).takeWhile (· ≤ q) = ps.take k := by
    refine takeWhile_append_of_stops (fun p hp => by simpa using hbelow p hp) (fun p hp => ?_)
    have := habove p (List.mem_of_head? hp)
    simpa using this
  rw [List.take_append_drop] at hsplit
  rw [hsplit, List.length_take, Nat.min_eq_left hk]

theorem length_takeWhile_of_getElem? {ps : List Nat} {q i : Nat} (hps : ps.Pairwise (· < ·))
    (h : ps[i]? = some q) : (ps.takeWhile (· ≤ q)).length = i + 1 := by
  obtain ⟨hi, hq⟩ := List.getElem?_eq_some_iff.1 h
  have htake : ps.take (i + 1) = ps.take i ++ [q] := by rw [List.take_add_one, h]; rfl
  have hsplit := hps
  rw [← List.take_append_drop (i + 1) ps, htake, List.pairwise_append, List.pairwise_append]
    at hsplit
  obtain ⟨⟨-, -, hfront⟩, -, hbehind⟩ := hsplit
  refine length_takeWhile_of_split hi (fun p hp => ?_) (fun p hp => hbehind q (by simp) p hp)
  rw [htake, List.mem_append, List.mem_singleton] at hp
  rcases hp with hp | rfl
  · exact Nat.le_of_lt (hfront p hp q (by simp))
  · exact Nat.le_refl p

/-- A search among the starts of lines finds the line: where it finds nothing the line starts in
front of where the place could be put in, and that is never in front of all of them. -/
theorem line_of_searches (s : Source) (counting : Counting) (p : Nat) {answer : Except Nat Nat}
    (h : Searches (ofSource s).starts (min p s.size) answer) :
    ((ofSource s).location counting p).line =
      match answer with
      | .ok i => i + 1
      | .error k => k := by
  show ((ofSource s).starts.takeWhile (· ≤ min p s.size)).length = _
  cases h with
  | found h => exact length_takeWhile_of_getElem? (pairwise_starts s) h
  | missing hk hbelow habove =>
    exact length_takeWhile_of_split hk (fun p hp => Nat.le_of_lt (hbelow p hp)) habove

theorem getElem?_starts (s : Source) (counting : Counting) (p : Nat) :
    (ofSource s).starts[((ofSource s).location counting p).line - 1]? =
      some ((ofSource s).location counting p).lineBegin := by
  obtain ⟨behind, hsplit⟩ := List.takeWhile_prefix (l := (ofSource s).starts)
    (fun r => decide (r ≤ min p s.size))
  show (ofSource s).starts[((ofSource s).starts.takeWhile (· ≤ min p s.size)).length - 1]? =
    some (((ofSource s).starts.takeWhile (· ≤ min p s.size)).getLastD 0)
  rw [takeWhile_starts] at hsplit ⊢
  rw [← hsplit, List.getElem?_append_left (by simp), ← List.getLast?_eq_getElem?, List.getLast?_cons,
    List.getLastD_cons, List.getLastD_eq_getLast?]

/-- Lines and columns of units are exact.  A place behind the end counts as the end.  Its line is
told by the line feeds in front of it, and its column by the units between the start of the line
and the place, less one inside of a line break of two units.  So places come in the order of their
lines and columns.  Whatever a search among the starts answers, the line is the one it has found,
or the one in front of where the place could be put in. -/
theorem location_exact (s : Source) :
    (∀ counting p, ((ofSource s).location counting p).OnLine s (min p s.size)) ∧
    (∀ p, ((ofSource s).location .units p).column =
      min p s.size - ((ofSource s).location .units p).lineBegin + 1 -
        if s.InsideBreak (min p s.size) then 1 else 0) ∧
    (Monotone fun p => toLex (((ofSource s).location .units p).line,
      ((ofSource s).location .units p).column)) ∧
    (ofSource s).lineCount = 1 + s.units.toList.count lineFeed ∧
    ∀ counting p answer, Searches (ofSource s).starts (min p s.size) answer →
      ∃ i, (answer = .ok i ∨ answer = .error (i + 1)) ∧
        ((ofSource s).location counting p).line = i + 1 ∧
        (ofSource s).starts[i]? = some ((ofSource s).location counting p).lineBegin := by
  refine ⟨onLine s, fun p => ?_, ?_, ?_, fun counting p answer h => ?_⟩
  · have hle := (onLine s .units p).le_beforeBreak
    rw [column_units]
    unfold Source.beforeBreak at hle ⊢
    split
    · next hbreak =>
      rw [if_pos hbreak] at hle
      have := hbreak.1
      omega
    · rfl
  · exact monotone_of_column s .units (fun b q => q - b + 1) (column_units s)
      fun b q r hqr => by simp only; omega
  · rw [lineCount, show (ofSource s).starts = 0 :: lineStartsFrom 0 s.units.toList from rfl,
      List.length_cons, length_lineStartsFrom, Nat.add_comm]
  · have hline := line_of_searches s counting p h
    have hpos : 0 < ((ofSource s).location counting p).line := by
      rw [(onLine s counting p).line_eq]
      omega
    refine ⟨((ofSource s).location counting p).line - 1, ?_, by omega, getElem?_starts s counting p⟩
    cases answer with
    | ok i => exact .inl (by rw [hline]; rfl)
    | error k => exact .inr (by rw [Nat.sub_add_cancel hpos, hline])

/-- On the line feed of a line break of two units, which is searched for in vain. -/
theorem location_exact_line_break :
    let s : Source := ⟨.utf8, #[0x61, 0x62, 0x0D, 0x0A, 0x63], by decide⟩
    Searches (ofSource s).starts (min 3 s.size) (.error 1) ∧ s.InsideBreak 3 ∧
      (ofSource s).location .units 3 = ⟨1, 3, 0, 3⟩ ∧ (ofSource s).starts[0]? = some 0 := by
  intro s
  have hanswer : Searches (ofSource s).starts (min 3 s.size) (.error 1) :=
    .missing (by decide) (by decide) (by decide)
  obtain ⟨i, hi, hline, hbegin⟩ := (location_exact s).2.2.2.2 .units 3 _ hanswer
  refine ⟨hanswer, by decide, by decide, ?_⟩
  rcases hi with hi | hi
  · cases hi
  · obtain rfl : 0 = i := Nat.succ.inj (Except.error.inj hi)
    exact hbegin

end LineIndex

end

end Phrase
