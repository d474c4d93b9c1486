import Phrase.Proofs.Encoding.Lines
import Phrase.Proofs.Encoding.Malformed
import Phrase.Proofs.Encoding.RoundTrip

/-!
# Chunks of a source

A source is read chunk by chunk: a code point, or the malformed units that recovery skips in its
place.  Whatever the units are, a chunk is one unit and the units behind it that continue it, at
most as many as the first one allows for (`Encoding.chunkLength_cons`).  So cutting the source off
inside of a chunk leaves one chunk there, a line feed is a chunk of its own, and counting from the
start of a line finds the chunks of the whole source (`LineIndex.columns_count_chunks`).
-/

namespace Phrase

/-! ## The law of chunks -/

namespace Encoding

instance : (e : Encoding) → (u : Nat) → Decidable (e.Continues u)
  | .ascii, _ | .utf32, _ => inferInstanceAs (Decidable False)
  | .utf8, _ => inferInstanceAs (Decidable (_ ∧ _))
  | .utf16, _ => inferInstanceAs (Decidable (_ ∧ _))

/-- How many units a chunk may take behind its first one. -/
def followers : Encoding → Nat → Nat
  | .utf8, b =>
    if b < 0xC0 then 0 else if b < 0xE0 then 1 else if b < 0xF0 then 2 else if b < 0xF8 then 3 else 0
  | .utf16, u => if IsHighSurrogate u then 1 else 0
  | .ascii, _ | .utf32, _ => 0

/-- The units behind the first one of a chunk. -/
def chunkTail (e : Encoding) (u : Nat) (rest : List Nat) : List Nat :=
  (rest.take (e.followers u)).takeWhile fun v => e.Continues v

/-- The number of units that make a chunk at the front of some units. -/
def chunkLength (e : Encoding) (us : List Nat) : Nat := max 1 (e.decode us).extent

section
variable {e : Encoding} {u : Nat} {rest : List Nat}

theorem chunkTail_of_followers_eq_zero (h : e.followers u = 0) : e.chunkTail u rest = [] := by
  rw [chunkTail, h, List.take_zero, List.takeWhile_nil]

theorem chunkTail_take (n : Nat) : e.chunkTail u (rest.take n) = (e.chunkTail u rest).take n := by
  rw [chunkTail, chunkTail, List.take_takeWhile, List.take_take, List.take_take, Nat.min_comm]

theorem followers_lt_maxUnits (e : Encoding) (u : Nat) : e.followers u < e.maxUnits := by
  cases e with
  | utf8 =>
    simp only [followers, maxUnits]
    repeat' split
    all_goals omega
  | utf16 =>
    simp only [followers, maxUnits]
    split
    all_goals omega
  | ascii => exact Nat.one_pos
  | utf32 => exact Nat.one_pos

theorem extent_decodeSequence (lead bits count : Nat) (rest : List Nat) :
    (decodeSequence lead bits count rest).extent = 1 + (continuations count rest).length := by
  rw [← length_decodeSequence lead bits count rest, Decoding.extent]
  split
  · next h => exact absurd h (decodeSequence_status_ne_eof _ _ _ _)
  · next h => exact absurd h (decodeSequence_status_ne _ _ _ _)
  · rfl

theorem chunkLength_utf8 : utf8.chunkLength (u :: rest) = 1 + (utf8.chunkTail u rest).length := by
  have hsequence : ∀ {bits count : Nat}, utf8.followers u = count →
      max 1 (decodeSequence u bits count rest).extent = 1 + (utf8.chunkTail u rest).length := by
    intro bits count hcount
    rw [extent_decodeSequence, chunkTail, hcount]
    exact Nat.max_eq_right (Nat.le_add_right 1 _)
  have hone : utf8.followers u = 0 → 1 = 1 + (utf8.chunkTail u rest).length := by
    intro hzero
    rw [chunkTail_of_followers_eq_zero hzero]
    rfl
  show max 1 (decodeUtf8 (u :: rest)).extent = _
  rw [decodeUtf8]
  split_ifs
  · exact hone (by grind [followers])
  · exact hone (by grind [followers])
  · exact hsequence (by grind [followers])
  · exact hsequence (by grind [followers])
  · exact hsequence (by grind [followers])
  · exact hone (by grind [followers])

theorem chunkLength_utf16 :
    utf16.chunkLength (u :: rest) = 1 + (utf16.chunkTail u rest).length := by
  show max 1 (decodeUtf16 (u :: rest)).extent = _
  rw [decodeUtf16.eq_def]
  simp only
  split
  · next hhigh =>
    rw [chunkTail, show utf16.followers u = 1 from if_pos hhigh]
    cases rest with
    | nil => rfl
    | cons w rest =>
      rw [List.take_succ_cons, List.take_zero]
      simp only
      split
      · next hlow =>
        have hw : utf16.Continues w := hlow
        simp [hw, Decoding.extent]
      · next hlow =>
        have hw : ¬ utf16.Continues w := hlow
        simp [hw, Decoding.extent]
  · next hhigh =>
    rw [chunkTail_of_followers_eq_zero (show utf16.followers u = 0 from if_neg hhigh)]
    split
    · rfl
    · rfl

/-- A chunk is one unit and what continues it. -/
theorem chunkLength_cons (e : Encoding) (u : Nat) (rest : List Nat) :
    e.chunkLength (u :: rest) = 1 + (e.chunkTail u rest).length := by
  cases e with
  | utf8 => exact chunkLength_utf8
  | utf16 => exact chunkLength_utf16
  | utf32 =>
    show max 1 (decodeUtf32 (u :: rest)).extent = 1
    rw [decodeUtf32]
    repeat' split
    all_goals rfl
  | ascii =>
    show max 1 (decodeAscii (u :: rest)).extent = 1
    rw [decodeAscii]
    split
    all_goals rfl

/-- A line feed starts a chunk of its own, and no other chunk takes it. -/
theorem chunkTail_lineFeed (e : Encoding) (rest : List Nat) : e.chunkTail lineFeed rest = [] := by
  cases e <;> exact chunkTail_of_followers_eq_zero (by decide)

theorem not_continues_lineFeed (e : Encoding) : ¬ e.Continues lineFeed := by
  cases e <;> decide

theorem continues_of_mem_chunkTail {v : Nat} (h : v ∈ e.chunkTail u rest) : e.Continues v :=
  of_decide_eq_true (List.all_eq_true.1 List.all_takeWhile v h)

theorem chunkTail_prefix (e : Encoding) (u : Nat) (rest : List Nat) :
    e.chunkTail u rest <+: rest :=
  (List.takeWhile_prefix _).trans (List.take_prefix _ _)

/-- A decoder sees so many units at most, and a chunk has no more. -/
theorem chunkLength_take_maxUnits (e : Encoding) (u : Nat) (rest : List Nat) :
    e.chunkLength ((u :: rest).take e.maxUnits) = 1 + (e.chunkTail u rest).length := by
  obtain ⟨n, hn⟩ := Nat.exists_eq_add_one.2 e.maxUnits_pos
  have hfollowers := e.followers_lt_maxUnits u
  rw [hn, List.take_succ_cons, chunkLength_cons, chunkTail, List.take_take,
    Nat.min_eq_left (by omega)]
  rfl

end

end Encoding

/-! ## Reading chunk by chunk -/

namespace Cursor

/-- Passes over a code point or recovers from malformed units, and passes over one unit where
recovery does not move. -/
def passChunk (c : Cursor) : Except Fault Cursor := do
  let next ← c.skip c.decode
  if next.position = c.position then next.bump else return next

/-- Reading chunk by chunk stands at these places: at the start of every chunk, and at last at the
end, where no more chunk starts. -/
inductive Chunks : Cursor → List Nat → Prop where
  | done {c : Cursor} (h : c.position = c.stop) : Chunks c [c.position]
  | step {c next : Cursor} {ps : List Nat} (h : c.position < c.stop)
      (hnext : c.passChunk = .ok next) (hmore : Chunks next ps) : Chunks c (c.position :: ps)

variable {c : Cursor} {u p q : Nat} {rest ps qs : List Nat}

theorem skip_extent (hc : c.position ≤ c.stop) :
    c.skip c.decode = .ok { c with position := c.position + c.decode.extent } := by
  unfold skip
  split
  · next h =>
    have hlength := c.decode_length_le
    rw [Decoding.extent, h]
    exact moveTo_eq (by omega)
  · next h => exact recover_extent h

theorem passChunk_eq (h : c.position < c.stop) : c.passChunk = .ok c.pastChunk := by
  rw [passChunk, skip_extent (Nat.le_of_lt h), ok_bind, pastChunk]
  simp only
  split
  · next hzero =>
    rw [bump, if_pos (by simp only; omega), show c.decode.extent = 0 by omega]
    rfl
  · next hpos =>
    rw [Nat.max_eq_right (by omega)]
    rfl

theorem exists_remaining_cons (hc : c.Valid) (h : c.position < c.stop) :
    ∃ u rest, c.remaining = .ok (u :: rest) := by
  have hrest := remaining_eq hc
  generalize (c.source.units.toList.drop c.position).take (c.stop - c.position) = us at hrest
  have hlength := length_of_remaining hrest
  cases us with
  | nil =>
    rw [List.length_nil] at hlength
    omega
  | cons u rest => exact ⟨u, rest, hrest⟩

/-- A chunk takes its first unit and those that continue it. -/
theorem pastChunk_of_remaining (hrest : c.remaining = .ok (u :: rest)) :
    c.pastChunk = c.behind (1 + (c.source.encoding.chunkTail u rest).length) := by
  rw [pastChunk, decode, ahead_eq_take hrest, ← Encoding.chunkLength_take_maxUnits]
  rfl

theorem pastChunk_bounds (hc : c.Valid) (h : c.position < c.stop) :
    c.position < c.pastChunk.position ∧ c.pastChunk.position ≤ c.stop := by
  obtain ⟨u, rest, hrest⟩ := exists_remaining_cons hc h
  have hlength := length_of_remaining hrest
  have htail := (c.source.encoding.chunkTail_prefix u rest).length_le
  rw [pastChunk_of_remaining hrest]
  rw [List.length_cons] at hlength
  simp only [behind]
  omega

theorem valid_pastChunk (hc : c.Valid) (h : c.position < c.stop) : c.pastChunk.Valid :=
  ⟨(pastChunk_bounds hc h).2, hc.stop_le⟩

/-- A step passes a chunk: it moves, and it stays in front of the end. -/
theorem next_of_passChunk {next : Cursor} (hc : c.Valid) (h : c.position < c.stop)
    (hnext : c.passChunk = .ok next) :
    next = c.pastChunk ∧ next.Valid ∧ c.position < next.position ∧ next.stop = c.stop := by
  obtain rfl := Except.ok.inj (hnext.symm.trans (passChunk_eq h))
  exact ⟨rfl, valid_pastChunk hc h, (pastChunk_bounds hc h).1, rfl⟩

/-! What reading chunk by chunk meets. -/

theorem exists_chunks (hc : c.Valid) : ∃ ps, c.Chunks ps := by
  generalize hn : c.stop - c.position = n
  induction n using Nat.strong_induction_on generalizing c with
  | h n ih =>
    rcases Nat.eq_or_lt_of_le hc.position_le with heq | hlt
    · exact ⟨_, .done heq⟩
    · have hbounds := pastChunk_bounds hc hlt
      obtain ⟨ps, hps⟩ := ih (c.stop - c.pastChunk.position) (by omega) (valid_pastChunk hc hlt) rfl
      exact ⟨_, .step hlt (passChunk_eq hlt) hps⟩

theorem Chunks.unique (hp : c.Chunks ps) (hq : c.Chunks qs) : ps = qs := by
  induction hp generalizing qs with
  | done h =>
    cases hq with
    | done _ => rfl
    | step hlt _ _ => omega
  | step hlt hnext _ ih =>
    cases hq with
    | done h => omega
    | step _ hnext' hmore' =>
      obtain rfl := Except.ok.inj (hnext.symm.trans hnext')
      rw [ih hmore']

theorem Chunks.position_mem (h : c.Chunks ps) : c.position ∈ ps := by
  cases h with
  | done _ => exact List.mem_cons_self
  | step _ _ _ => exact List.mem_cons_self

theorem Chunks.position_le (h : c.Chunks ps) (hc : c.Valid) : ∀ p ∈ ps, c.position ≤ p := by
  induction h with
  | done _ => simp
  | step hlt hnext _ ih =>
    obtain ⟨-, hvalid, hmoves, -⟩ := next_of_passChunk hc hlt hnext
    intro p hp
    rcases List.mem_cons.1 hp with rfl | hp
    · exact Nat.le_refl _
    · have := ih hvalid p hp
      omega

/-- The loop that counts chunks comes to the end, and it has counted all of them. -/
theorem Chunks.countChunks (h : c.Chunks ps) (hc : c.Valid) {fuel : Nat}
    (hfuel : c.stop - c.position ≤ fuel) : c.countChunks fuel + 1 = ps.length := by
  induction h generalizing fuel with
  | done h =>
    cases fuel with
    | zero => rfl
    | succ fuel => rw [Cursor.countChunks, if_neg (by omega)]; rfl
  | step hlt hnext _ ih =>
    obtain ⟨rfl, hvalid, hmoves, hstop⟩ := next_of_passChunk hc hlt hnext
    obtain ⟨fuel, rfl⟩ := Nat.exists_eq_add_one.2 (show 0 < fuel by omega)
    rw [Cursor.countChunks, if_pos hlt, Nat.add_comm 1, ih hvalid (by omega), List.length_cons]

/-- Every chunk has a unit. -/
theorem Chunks.length_le (h : c.Chunks ps) (hc : c.Valid) :
    ps.length ≤ c.stop - c.position + 1 := by
  induction h with
  | done _ => exact Nat.le_add_left 1 _
  | step hlt hnext _ ih =>
    obtain ⟨-, hvalid, hmoves, hstop⟩ := next_of_passChunk hc hlt hnext
    have hle := ih hvalid
    rw [List.length_cons]
    omega

/-- Reading may start at any place that it comes to. -/
theorem Chunks.of_mem (h : c.Chunks ps) (hc : c.Valid) (hp : p ∈ ps) :
    ({ c with position := p } : Cursor).Chunks (ps.filter (p ≤ ·)) := by
  induction h with
  | @done c h =>
    obtain rfl := List.mem_singleton.1 hp
    rw [List.filter_cons_of_pos (by simp)]
    exact .done h
  | @step c next ps hlt hnext hmore ih =>
    have hle := (Chunks.step hlt hnext hmore).position_le hc
    obtain ⟨rfl, hvalid, hmoves, -⟩ := next_of_passChunk hc hlt hnext
    rcases List.mem_cons.1 hp with rfl | hp
    · rw [List.filter_eq_self.2 fun p hp => decide_eq_true (hle p hp)]
      exact .step hlt hnext hmore
    · have := hmore.position_le hvalid p hp
      rw [List.filter_cons_of_neg (by simp only [decide_eq_true_eq]; omega)]
      exact ih hvalid hp

/-- The last place is the end; a chunk starts at each of the others. -/
theorem Chunks.exists_starts (h : c.Chunks ps) (hc : c.Valid) :
    ∃ starts, ps = starts ++ [c.stop] ∧ ∀ p ∈ starts, p < c.stop := by
  induction h with
  | done h => exact ⟨[], by rw [h, List.nil_append], fun p hp => absurd hp List.not_mem_nil⟩
  | @step c next ps hlt hnext _ ih =>
    obtain ⟨-, hvalid, -, hstop⟩ := next_of_passChunk hc hlt hnext
    obtain ⟨starts, hps, hstarts⟩ := ih hvalid
    rw [hstop] at hps hstarts
    exact ⟨c.position :: starts, by rw [hps, List.cons_append],
      List.forall_mem_cons.2 ⟨hlt, hstarts⟩⟩

/-- Where a source is cut off, a chunk that goes further ends. -/
theorem pastChunk_cut (hc : c.Valid) (hq : c.position < q) (hstop : q ≤ c.stop) :
    ({ c with stop := q } : Cursor).pastChunk.position = min c.pastChunk.position q := by
  obtain ⟨u, rest, hrest⟩ := exists_remaining_cons hc (Nat.lt_of_lt_of_le hq hstop)
  obtain ⟨n, rfl⟩ := Nat.exists_eq_add_of_lt hq
  have hcut : ({ c with stop := c.position + n + 1 } : Cursor).remaining =
      .ok (u :: rest.take n) := by
    refine (slice_eq_ok_iff_take hrest hstop).2 ⟨Nat.le_of_lt hq, ?_⟩
    rw [Nat.add_assoc, Nat.add_sub_cancel_left, List.take_succ_cons]
  rw [pastChunk_of_remaining hcut, pastChunk_of_remaining hrest]
  show c.position + (1 + (c.source.encoding.chunkTail u (rest.take n)).length) = _
  rw [Encoding.chunkTail_take, List.length_take]
  simp only [behind]
  omega

/-- Cutting a source off leaves the chunks in front of that place, if shorter. -/
theorem Chunks.cut (h : c.Chunks ps) (hc : c.Valid) (hq : c.position ≤ q) (hstop : q ≤ c.stop) :
    ({ c with stop := q } : Cursor).Chunks (ps.filter (· < q) ++ [q]) := by
  induction h with
  | @done c h =>
    obtain rfl : c.position = q := by omega
    rw [List.filter_cons_of_neg (by simp)]
    exact .done rfl
  | @step c next ps hlt hnext hmore ih =>
    have hle := (Chunks.step hlt hnext hmore).position_le hc
    obtain ⟨rfl, hvalid, -, -⟩ := next_of_passChunk hc hlt hnext
    rcases Nat.eq_or_lt_of_le hq with rfl | hq
    · rw [List.filter_eq_nil_iff.2 fun p hp => by simpa using hle p hp]
      exact .done rfl
    · have hcut := pastChunk_cut hc hq hstop
      rw [List.filter_cons_of_pos (by simpa using hq), List.cons_append]
      refine .step hq (passChunk_eq hq) ?_
      rcases Nat.le_total c.pastChunk.position q with hnext | hnext
      · rw [Nat.min_eq_left hnext] at hcut
        have heq : ({ c with stop := q } : Cursor).pastChunk = { c.pastChunk with stop := q } :=
          congrArg (Cursor.mk c.source · q) hcut
        rw [heq]
        exact ih hvalid hnext hstop
      · -- the chunk would go beyond the cut, and so there is none behind it
        rw [Nat.min_eq_right hnext] at hcut
        have hnone : ps.filter (· < q) = [] := by
          rw [List.filter_eq_nil_iff]
          intro p hp
          have := hmore.position_le hvalid p hp
          simp only [decide_eq_true_eq]
          omega
        have hdone : ({ c with stop := q } : Cursor).pastChunk.Chunks _ := .done hcut
        rw [hcut] at hdone
        rw [hnone]
        exact hdone

section
variable (hc : c.Valid) (h : c.position < c.stop)
include hc h

theorem pastChunk_of_lineFeed (hfeed : c.source.units[c.position]? = some lineFeed) :
    c.pastChunk.position = c.position + 1 := by
  obtain ⟨u, rest, hrest⟩ := exists_remaining_cons hc h
  have hpeek := peekAt_eq_getElem? hrest 0
  rw [peekAt, Nat.add_zero, if_pos h, hfeed] at hpeek
  obtain rfl : lineFeed = u := Option.some.inj hpeek
  rw [pastChunk_of_remaining hrest, Encoding.chunkTail_lineFeed]
  rfl

/-- A line feed continues nothing, so a chunk ends in front of it at the latest. -/
theorem pastChunk_le_lineFeed (hp : c.position < p) (hstop : p < c.stop)
    (hfeed : c.source.units[p]? = some lineFeed) : c.pastChunk.position ≤ p := by
  obtain ⟨u, rest, hrest⟩ := exists_remaining_cons hc h
  obtain ⟨n, rfl⟩ := Nat.exists_eq_add_of_lt hp
  have htail := c.source.encoding.chunkTail_prefix u rest
  rw [pastChunk_of_remaining hrest]
  simp only [behind]
  by_contra hbehind
  have hn : n < (c.source.encoding.chunkTail u rest).length := by omega
  have hpeek : rest[n]? = some lineFeed := by
    rw [← List.getElem?_cons_succ (a := u), ← peekAt_eq_getElem? hrest, peekAt, ← Nat.add_assoc,
      if_pos hstop, hfeed]
  rw [List.getElem?_eq_getElem (Nat.lt_of_lt_of_le hn htail.length_le), Option.some.injEq,
    ← htail.getElem hn] at hpeek
  have hcontinues := Encoding.continues_of_mem_chunkTail (List.getElem_mem hn)
  rw [hpeek] at hcontinues
  exact c.source.encoding.not_continues_lineFeed hcontinues

end

/-- Behind a line feed a chunk starts, or nothing is left. -/
theorem Chunks.mem_behind_lineFeed (h : c.Chunks ps) (hc : c.Valid) (hp : c.position ≤ p)
    (hstop : p < c.stop) (hfeed : c.source.units[p]? = some lineFeed) : p + 1 ∈ ps := by
  induction h with
  | done h => omega
  | @step c next ps hlt hnext hmore ih =>
    obtain ⟨rfl, hvalid, -, -⟩ := next_of_passChunk hc hlt hnext
    rcases Nat.eq_or_lt_of_le hp with rfl | hp
    · have hmem := hmore.position_mem
      rw [pastChunk_of_lineFeed hc hlt hfeed] at hmem
      exact List.mem_cons_of_mem _ hmem
    · have hbefore := pastChunk_le_lineFeed hc hlt hp hstop hfeed
      exact List.mem_cons_of_mem _ (ih hvalid hbefore hstop hfeed)

end Cursor

/-! ## Columns of code points -/

namespace LineIndex

open Cursor

variable {s : Source} {places starts : List Nat}

/-- Every line starts at a place that reading chunk by chunk comes to. -/
theorem lineBegin_mem_places (h : (Cursor.ofSource s).Chunks places) (counting : Counting)
    (p : Nat) : ((ofSource s).location counting p).lineBegin ∈ places := by
  rcases (onLine s counting p).begins with hzero | ⟨hpos, hfeed⟩
  · rw [hzero]
    exact h.position_mem
  · have hsize : ((ofSource s).location counting p).lineBegin - 1 < s.units.size :=
      (Array.getElem?_eq_some_iff.1 hfeed).1
    have hmem := h.mem_behind_lineFeed s.valid_ofSource (Nat.zero_le _) hsize hfeed
    rw [Nat.sub_add_cancel hpos] at hmem
    exact hmem

/-- A column of code points is told by the chunks between the start of the line and the place, as
they are in the whole source. -/
theorem exists_chunks_column (h : (Cursor.ofSource s).Chunks places) (p : Nat) :
    ∃ counted, (Cursor.mk s ((ofSource s).location .codePoints p).lineBegin
        (s.beforeBreak (min p s.size))).Chunks (counted ++ [s.beforeBreak (min p s.size)]) ∧
      ((ofSource s).location .codePoints p).column = 1 + counted.length ∧
      counted.length = places.countP fun i =>
        ((ofSource s).location .codePoints p).lineBegin ≤ i ∧ i < s.beforeBreak (min p s.size) := by
  have hline := onLine s .codePoints p
  have hle := hline.le_beforeBreak
  have hbounds := s.beforeBreak_bounds (min p s.size)
  have hsize : s.beforeBreak (min p s.size) ≤ s.size := by omega
  have hfrom := h.of_mem s.valid_ofSource (lineBegin_mem_places h .codePoints p)
  have hcut := hfrom.cut ⟨Nat.le_trans hle hsize, Nat.le_refl _⟩ hle hsize
  have hcount := hcut.countChunks ⟨hle, hsize⟩ (Nat.le_refl _)
  rw [List.length_append, List.length_singleton] at hcount
  refine ⟨_, hcut, ?_, ?_⟩
  · rw [Nat.add_comm, ← hcount, ← hline.inLine_eq]
    rfl
  · rw [List.filter_filter, List.countP_eq_length_filter]
    congr 2
    funext i
    simp [Bool.and_comm]

theorem lineBegin_mem_starts (h : (Cursor.ofSource s).Chunks (starts ++ [s.size])) (p : Nat) :
    ((ofSource s).location .codePoints p).lineBegin ∈ starts ∨
      ((ofSource s).location .codePoints p).lineBegin = s.size :=
  (List.mem_append.1 (lineBegin_mem_places h .codePoints p)).imp_right List.mem_singleton.1

/-- The end is not counted: no place is behind it. -/
theorem column_eq_countP (h : (Cursor.ofSource s).Chunks (starts ++ [s.size])) (p : Nat) :
    ((ofSource s).location .codePoints p).column = 1 + starts.countP fun i =>
      ((ofSource s).location .codePoints p).lineBegin ≤ i ∧ i < s.beforeBreak (min p s.size) := by
  have hbounds := s.beforeBreak_bounds (min p s.size)
  have hend : ¬ s.size < s.beforeBreak (min p s.size) := by omega
  obtain ⟨counted, -, hcolumn, hcount⟩ := exists_chunks_column h p
  rw [hcolumn, hcount, List.countP_append, List.countP_singleton,
    if_neg fun hcounted => hend (of_decide_eq_true hcounted).2, Nat.add_zero]

/-- The loop that counts chunks reads a cursor that is cut off at the place. -/
theorem exists_cut_column (h : (Cursor.ofSource s).Chunks places) (p : Nat) :
    ∃ cut counted,
      ((Cursor.ofSource s).partialTo (s.beforeBreak (min p s.size)) >>=
        (·.moveTo ((ofSource s).location .codePoints p).lineBegin)) = .ok cut ∧
      cut.Chunks (counted ++ [cut.stop]) ∧
      ((ofSource s).location .codePoints p).column = 1 + counted.length := by
  obtain ⟨counted, hcounted, hcolumn, -⟩ := exists_chunks_column h p
  have hbounds := s.beforeBreak_bounds (min p s.size)
  refine ⟨_, counted, ?_, hcounted, hcolumn⟩
  rw [partialTo, if_pos ⟨Nat.zero_le _, by simp only [Cursor.ofSource]; omega⟩, ok_bind]
  exact moveTo_eq (onLine s .codePoints p).le_beforeBreak

theorem column_le_column_units (h : (Cursor.ofSource s).Chunks places) (p : Nat) :
    ((ofSource s).location .codePoints p).column ≤ ((ofSource s).location .units p).column := by
  obtain ⟨counted, hcounted, hcolumn, -⟩ := exists_chunks_column h p
  have hline := onLine s .codePoints p
  have hbounds := s.beforeBreak_bounds (min p s.size)
  have hle := hcounted.length_le ⟨hline.le_beforeBreak, by simp only; omega⟩
  rw [List.length_append, List.length_singleton] at hle
  rw [hcolumn, column_units, Nat.add_comm]
  exact hle

theorem monotone_column (h : (Cursor.ofSource s).Chunks (starts ++ [s.size])) :
    Monotone fun p => toLex (((ofSource s).location .codePoints p).line,
      ((ofSource s).location .codePoints p).column) := by
  refine monotone_of_column s .codePoints
    (fun b q => 1 + starts.countP fun i => b ≤ i ∧ i < q) (column_eq_countP h) fun b q r hqr => ?_
  refine Nat.add_le_add_left (List.countP_mono_left fun i _ hi => ?_) 1
  simp only [decide_eq_true_eq] at hi ⊢
  omega

/-- Columns of code points count chunks.  Reading the whole source chunk by chunk stands at the start
of every chunk and at last at the end of the source.  It comes to the start of every line, where a
chunk starts unless that is the end.  The column of a place is one more than the number of chunks
that start between the start of the line and the place, or in front of a line break that the place
is inside of; the loop that counts them there reads only up to that place, and it ends.  So there
are at most as many columns as columns of units, and places come in the order of their lines and
columns. -/
theorem columns_count_chunks (s : Source) :
    ∃ starts, (∀ ps, (Cursor.ofSource s).Chunks ps ↔ ps = starts ++ [s.size]) ∧
      (∀ i ∈ starts, i < s.size) ∧
      (∀ p, ((ofSource s).location .codePoints p).column = 1 + starts.countP fun i =>
        ((ofSource s).location .codePoints p).lineBegin ≤ i ∧ i < s.beforeBreak (min p s.size)) ∧
      (∀ p, ((ofSource s).location .codePoints p).lineBegin ∈ starts ∨
        ((ofSource s).location .codePoints p).lineBegin = s.size) ∧
      (∀ p, ∃ cut counted,
        ((Cursor.ofSource s).partialTo (s.beforeBreak (min p s.size)) >>=
          (·.moveTo ((ofSource s).location .codePoints p).lineBegin)) = .ok cut ∧
        cut.Chunks (counted ++ [cut.stop]) ∧
        ((ofSource s).location .codePoints p).column = 1 + counted.length) ∧
      (∀ p, ((ofSource s).location .codePoints p).column ≤
        ((ofSource s).location .units p).column) ∧
      Monotone fun p => toLex (((ofSource s).location .codePoints p).line,
        ((ofSource s).location .codePoints p).column) := by
  obtain ⟨places, h⟩ := exists_chunks s.valid_ofSource
  obtain ⟨starts, rfl, hstarts⟩ := h.exists_starts s.valid_ofSource
  exact ⟨starts, fun ps => ⟨fun hps => hps.unique h, fun hps => hps ▸ h⟩, hstarts,
    column_eq_countP h, lineBegin_mem_starts h, exists_cut_column h, column_le_column_units h,
    monotone_column h⟩

/-- A character of two bytes, a byte that starts nothing, a sequence that is cut short by a line
break, and another one that is cut short by the place. -/
example :
    let s : Source := ⟨.utf8, #[0xC3, 0xA9, 0xFF, 0xE2, 0x82, 0x0D, 0x0A, 0xF0, 0x9F, 0x98, 0x80],
      by decide⟩
    (ofSource s).location .codePoints 6 = ⟨1, 4, 0, 6⟩ ∧
      (ofSource s).location .codePoints 9 = ⟨2, 2, 7, 9⟩ := by
  decide

end LineIndex

end Phrase
