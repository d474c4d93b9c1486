import Phrase.Proofs.Encoding.Lines
import Phrase.Proofs.Parse.Characters

/-!
# Lines and columns of a text

In every encoding lines start behind the same characters, and columns count the characters
between; so paired positions are on the same line and, as far as code points are counted, in the
same column (`Environment.Twins.location_alike`).
-/

namespace Phrase

open Encoding

/-! ## Lists -/

theorem takeWhile_alike {R : Nat → Nat → Prop} {test test' : Nat → Bool} {ps ps' : List Nat}
    (h : List.Forall₂ R ps ps') (htest : ∀ p p', R p p' → test p = test' p') :
    List.Forall₂ R (ps.takeWhile test) (ps'.takeWhile test') := by
  induction h with
  | nil => exact .nil
  | @cons p p' ps ps' hp _ ih =>
    rw [List.takeWhile_cons, List.takeWhile_cons, htest p p' hp]
    split
    · exact .cons hp ih
    · exact .nil

theorem getLastD_alike {R : Nat → Nat → Prop} {p p' : Nat} {ps ps' : List Nat}
    (h : List.Forall₂ R ps ps') (hp : R p p') : R (ps.getLastD p) (ps'.getLastD p') := by
  induction h generalizing p p' with
  | nil => exact hp
  | cons hq _ ih =>
    rw [List.getLastD_cons, List.getLastD_cons]
    exact ih hq

/-! ## Lines -/

theorem lineStartsFrom_append {us : List Nat} (h : ∀ u ∈ us, u ≠ lineFeed) (index : Nat)
    (rest : List Nat) :
    lineStartsFrom index (us ++ rest) = lineStartsFrom (index + us.length) rest := by
  induction us generalizing index with
  | nil => rfl
  | cons u us ih =>
    obtain ⟨hu, hus⟩ := List.forall_mem_cons.1 h
    rw [List.cons_append, lineStartsFrom, if_neg hu, ih hus, List.length_cons]
    congr 1
    omega

/-- A line starts behind every line feed among the characters. -/
theorem lineStartsFrom_charsUnits {e : Encoding} {pre : List Char} {d : Char} {cs : List Char}
    (hd : e.CanEncode d.toNat) :
    lineStartsFrom (e.charsUnits pre).length (e.charsUnits (d :: cs)) =
      (if d.toNat = lineFeed then [(e.charsUnits (pre ++ [d])).length] else []) ++
        lineStartsFrom (e.charsUnits (pre ++ [d])).length (e.charsUnits cs) := by
  rw [charsUnits_append, List.length_append, charsUnits_cons, charsUnits_cons, charsUnits_nil,
    List.append_nil]
  by_cases hascii : CodePoint.IsAscii d.toNat
  · rw [charUnits_of_ascii e hascii, List.singleton_append, lineStartsFrom, List.length_singleton]
    split
    · rfl
    · rfl
  · have hne : d.toNat ≠ lineFeed := by
      unfold lineFeed
      omega
    rw [if_neg hne, List.nil_append, lineStartsFrom_append fun u hu => ?_]
    have hle := le_of_mem_charUnits hd hascii hu
    unfold lineFeed
    omega

/-- Lines start at paired positions. -/
theorem lineStarts_alike {e e' : Encoding} (pre : List Char) {cs : List Char}
    (he : e.CanEncodeAll cs) (he' : e'.CanEncodeAll cs) :
    List.Forall₂ (e.Abreast e' (pre ++ cs))
      (lineStartsFrom (e.charsUnits pre).length (e.charsUnits cs))
      (lineStartsFrom (e'.charsUnits pre).length (e'.charsUnits cs)) := by
  induction cs generalizing pre with
  | nil => exact .nil
  | cons d cs ih =>
    obtain ⟨hd, hcs⟩ := canEncodeAll_cons.1 he
    obtain ⟨hd', hcs'⟩ := canEncodeAll_cons.1 he'
    rw [lineStartsFrom_charsUnits hd, lineStartsFrom_charsUnits hd', List.append_cons]
    refine List.rel_append ?_ (ih (pre ++ [d]) hcs hcs')
    split
    · exact .cons ⟨pre ++ [d], cs, rfl, rfl, rfl⟩ .nil
    · exact .nil

/-! ## Columns -/

theorem Cursor.Sees.countChunks {c : Cursor} {cs : List Char} (h : c.Sees cs) {fuel : Nat}
    (hfuel : (c.source.encoding.charsUnits cs).length ≤ fuel) :
    c.countChunks fuel = cs.length := by
  induction cs generalizing c fuel with
  | nil =>
    have hstop := h.stop_eq
    rw [charsUnits_nil, List.length_nil] at hstop
    cases fuel with
    | zero => rfl
    | succ fuel => rw [Cursor.countChunks, if_neg (by omega)]; rfl
  | cons d cs ih =>
    have hpos := List.length_pos_iff.2
      (ne_nil_of_units? (units?_of_canEncode (canEncodeAll_cons.1 h.canEncode).1))
    have hstop := h.stop_eq
    rw [charsUnits_cons, List.length_append] at hfuel hstop
    obtain ⟨fuel, rfl⟩ := Nat.exists_eq_add_one.2 (show 0 < fuel by omega)
    have hmoved := h.moved [d]
    rw [charsUnits_cons, charsUnits_nil, List.append_nil] at hmoved
    have hpast : c.pastChunk = { c with
        position := c.position + (c.source.encoding.charUnits d).length } := by
      rw [Cursor.pastChunk, h.decode_cons]
      show { c with position := c.position + max 1 (c.source.encoding.charUnits d).length } = _
      rw [Nat.max_eq_right hpos]
    rw [Cursor.countChunks, if_pos (by omega), hpast, ih hmoved (by simp only; omega),
      List.length_cons, Nat.add_comm]

section
variable {env env' : Environment} {pre post cs : List Char} {p p' q q' : Nat}

/-- The unit behind some characters is one of ASCII if it is the next character. -/
theorem Environment.Reads.getElem?_eq_iff (h : env.Reads (pre ++ post)) {v : Nat}
    (hv : CodePoint.IsAscii v) :
    env.source.units[(env.source.encoding.charsUnits pre).length]? = some v ↔
      post.head?.map Char.toNat = some v := by
  rw [← Array.getElem?_toList, h.units, charsUnits_append,
    List.getElem?_append_right (Nat.le_refl _), Nat.sub_self,
    head?_charsUnits_eq_iff (fun x hx => h.canEncode x (List.mem_append_right _ hx)) hv]
  cases post with
  | nil => simp
  | cons d ds => simp

/-- The unit in front of a place is one of ASCII if it is the last character there. -/
theorem Environment.Reads.getElem?_pred_eq_iff (h : env.Reads (pre ++ post)) {v : Nat}
    (hv : CodePoint.IsAscii v) (hpos : 0 < (env.source.encoding.charsUnits pre).length) :
    env.source.units[(env.source.encoding.charsUnits pre).length - 1]? = some v ↔
      pre.getLast?.map Char.toNat = some v := by
  rcases List.eq_nil_or_concat' pre with rfl | ⟨front, d, rfl⟩
  · cases hpos
  · have hd : env.source.encoding.CanEncode d.toNat := h.canEncode d (by simp)
    have hlast : env.source.units[(env.source.encoding.charsUnits (front ++ [d])).length - 1]? =
        (env.source.encoding.charUnits d).getLast? := by
      have hne := List.length_pos_iff.2 (ne_nil_of_units? (units?_of_canEncode hd))
      rw [← Array.getElem?_toList, h.units, charsUnits_append,
        List.getElem?_append_left (by omega), charsUnits_append, charsUnits_cons, charsUnits_nil,
        List.append_nil, List.length_append, List.getElem?_append_right (by omega),
        List.getLast?_eq_getElem?]
      congr 1
      omega
    rw [hlast, List.getLast?_concat, Option.map_some, Option.some.injEq]
    by_cases hascii : CodePoint.IsAscii d.toNat
    · rw [charUnits_of_ascii _ hascii, List.getLast?_singleton, Option.some.injEq]
    · constructor
      · intro hv'
        have hle := le_of_mem_charUnits hd hascii (List.mem_of_getLast? hv')
        omega
      · rintro rfl
        exact absurd hv hascii

/-- A line feed behind a carriage return counts as the place in front of both. -/
theorem Environment.Reads.inLine_eq (h : env.Reads (pre ++ post)) (q : Nat) :
    (LineIndex.ofSource env.source).inLine q (env.source.encoding.charsUnits pre).length =
      if q < (env.source.encoding.charsUnits pre).length ∧
          post.head?.map Char.toNat = some lineFeed ∧
          pre.getLast?.map Char.toNat = some carriageReturn then
        (env.source.encoding.charsUnits pre).length - 1
      else (env.source.encoding.charsUnits pre).length := by
  refine if_congr (and_congr_right fun hq => ?_) rfl rfl
  exact and_congr (h.getElem?_eq_iff (by decide)) (h.getElem?_pred_eq_iff (by decide) (by omega))

namespace Environment.Twins

variable (h : env.Twins env' cs)
  (hp : env.source.encoding.Abreast env'.source.encoding cs p p')
include h hp

theorem inLine_alike (hq : env.source.encoding.Abreast env'.source.encoding cs q q')
    (hle : q ≤ p) : env.source.encoding.Abreast env'.source.encoding cs
      ((LineIndex.ofSource env.source).inLine q p) ((LineIndex.ofSource env'.source).inLine q' p') ∧
      q ≤ (LineIndex.ofSource env.source).inLine q p := by
  have hlt := h.correspondence.lt_iff hq hp
  obtain ⟨pre, post, rfl, rfl, rfl⟩ := hp
  rw [h.left.inLine_eq, h.right.inLine_eq]
  by_cases hbreak : post.head?.map Char.toNat = some lineFeed ∧
      pre.getLast?.map Char.toNat = some carriageReturn
  · obtain ⟨d, hlast, hd⟩ := Option.map_eq_some_iff.1 hbreak.2
    obtain ⟨front, rfl⟩ := List.getLast?_eq_some_iff.1 hlast
    have hlength : ∀ e : Encoding,
        (e.charsUnits (front ++ [d])).length = (e.charsUnits front).length + 1 := by
      intro e
      rw [charsUnits_append, List.length_append, charsUnits_cons,
        charUnits_of_ascii e (by rw [hd]; decide)]
      rfl
    by_cases hlt' : q < (env.source.encoding.charsUnits (front ++ [d])).length
    · rw [if_pos ⟨hlt', hbreak⟩, if_pos ⟨hlt.1 hlt', hbreak⟩]
      rw [hlength] at hlt'
      rw [hlength, hlength, Nat.add_sub_cancel, Nat.add_sub_cancel]
      exact ⟨⟨front, d :: post, List.append_assoc _ _ _, rfl, rfl⟩, by omega⟩
    · rw [if_neg fun hc => hlt' hc.1, if_neg fun hc => hlt' (hlt.2 hc.1)]
      exact ⟨⟨front ++ [d], post, rfl, rfl, rfl⟩, hle⟩
  · rw [if_neg fun hc => hbreak hc.2, if_neg fun hc => hbreak hc.2]
    exact ⟨⟨pre, post, rfl, rfl, rfl⟩, hle⟩

/-- Between paired positions there are as many columns of code points. -/
theorem columns_alike (hq : env.source.encoding.Abreast env'.source.encoding cs q q')
    (hle : q ≤ p) : (LineIndex.ofSource env.source).columns .codePoints q p =
      (LineIndex.ofSource env'.source).columns .codePoints q' p' := by
  obtain ⟨hin, hle⟩ := h.inLine_alike hp hq hle
  obtain ⟨mid, hsees, hsees', -⟩ := h.exists_sees hq hin hle
  have hcount : ∀ {c : Cursor}, c.Sees mid → c.countChunks (c.stop - c.position) = mid.length := by
    intro c hc
    have hstop := hc.stop_eq
    exact hc.countChunks (by omega)
  exact (hcount hsees).trans (hcount hsees').symm

/-- Paired positions are on the same line, and in the same column of code points. -/
theorem location_alike :
    ((LineIndex.ofSource env.source).location .codePoints p).line =
        ((LineIndex.ofSource env'.source).location .codePoints p').line ∧
      ((LineIndex.ofSource env.source).location .codePoints p).column =
        ((LineIndex.ofSource env'.source).location .codePoints p').column := by
  have hmin : min p (LineIndex.ofSource env.source).source.size = p :=
    Nat.min_eq_left (h.left.stop ▸ (h.le_stop hp).1)
  have hmin' : min p' (LineIndex.ofSource env'.source).source.size = p' :=
    Nat.min_eq_left (h.right.stop ▸ (h.le_stop hp).2)
  have hstarts : List.Forall₂ (env.source.encoding.Abreast env'.source.encoding cs)
      ((LineIndex.ofSource env.source).starts.takeWhile (· ≤ p))
      ((LineIndex.ofSource env'.source).starts.takeWhile (· ≤ p')) := by
    refine takeWhile_alike (.cons .start ?_) fun r r' hr => ?_
    · rw [h.left.units, h.right.units]
      exact lineStarts_alike [] h.left.canEncode h.right.canEncode
    · exact decide_eq_decide.2 (hr.le_iff h.left.canEncode h.right.canEncode hp)
  have hle : ((LineIndex.ofSource env.source).starts.takeWhile (· ≤ p)).getLastD 0 ≤ p :=
    getLastD_takeWhile_le _ p
  simp only [LineIndex.location, hmin, hmin']
  refine ⟨hstarts.length_eq, congrArg (· + 1) ?_⟩
  exact h.columns_alike hp (getLastD_alike hstarts .start) hle

end Environment.Twins

end

end Phrase
