/-
grep.c: the matcher for `^ . * $` and the loop that prints the lines that match.

A string is the list of its characters without the NUL that ends it; `read` returns some of the bytes asked for, how many
is a choice of the system. The buffer is the list of its m bytes.

- `match_decides_language`: the matcher decides the language its pattern denotes, from the start of the text or from
  any place in it.
- `grep_prints_matching_lines`: grep prints the lines that match, for every pattern, if and only if every read brings a
  newline.
- `short_read_loses_line`: a read without a newline makes grep drop the line it belongs to.
-/
import Mathlib.Computability.Language
import Xv6.Param

namespace Xv6.Grep

open Lib List

/-! ## The matcher -/

def CARET : Byte := 0x5e
def DOT : Byte := 0x2e
def STAR : Byte := 0x2a
def DOLLAR : Byte := 0x24
def NEWLINE : Byte := 0x0a

/-- search for c*re at beginning of text: its recursion on re is matchhere's, so re comes as its matcher `here` -/
def matchstar (here : List Byte → Bool) (c : Byte) : List Byte → Bool
  | [] => here []
  | t :: text => here (t :: text) || ((t == c || c == DOT) && matchstar here c text)

/-- one character, and then `here` -/
def charHere (here : List Byte → Bool) (c : Byte) : List Byte → Bool
  | [] => false
  | t :: text => (c == DOT || c == t) && here text

/-- search for re at beginning of text -/
def matchhere : List Byte → List Byte → Bool
  | [], _ => true
  | [c], text => if c = DOLLAR then text.isEmpty else charHere (matchhere []) c text
  | c :: d :: re, text => if d = STAR then matchstar (matchhere re) c text else charHere (matchhere (d :: re)) c text

/-- the loop of match: must look at empty string -/
def matchLoop (re : List Byte) : List Byte → Bool
  | [] => matchhere re []
  | t :: text => matchhere re (t :: text) || matchLoop re text

/-- `match` of grep.c -/
def matchRe (re text : List Byte) : Bool := if re.head? = some CARET then matchhere re.tail text else matchLoop re text

/-! ## The language of a pattern -/

/-- what a pattern is made of: one c, zero or more of c, or the end of the text -/
inductive Item where
  | one (c : Byte)
  | many (c : Byte)
  | eot
  deriving DecidableEq

/-- a pattern without its '^', read left to right -/
def items : List Byte → List Item
  | [] => []
  | [c] => if c = DOLLAR then [.eot] else [.one c]
  | c :: d :: re => if d = STAR then .many c :: items re else .one c :: items (d :: re)

/-- the characters c stands for -/
def Fits (c t : Byte) : Prop := c = DOT ∨ t = c

/-- the texts of one such character -/
def single (c : Byte) : Language Byte := {s | ∃ t, Fits c t ∧ s = [t]}

def Item.lang : Item → Language Byte
  | .one c => single c
  | .many c => KStar.kstar (single c)
  | .eot => 1

/-- some prefix is in the language of the items, and it is the whole text if they ask for its end -/
def Matches (its : List Item) (text : List Byte) : Prop :=
  ∃ u v, text = u ++ v ∧ u ∈ (its.map Item.lang).prod ∧ (.eot ∈ its → v = [])

theorem mem_lang_many {c : Byte} {u : List Byte} : u ∈ (Item.many c).lang ↔ ∀ t ∈ u, Fits c t := by
  change u ∈ KStar.kstar (single c) ↔ _
  rw [Language.mem_kstar]
  constructor
  · rintro ⟨L, rfl, hL⟩ t ht
    obtain ⟨w, hw, htw⟩ := mem_flatten.1 ht
    obtain ⟨t', hfit, rfl⟩ := hL w hw
    rw [mem_singleton.1 htw]
    exact hfit
  · intro h
    refine ⟨u.map fun t => [t], ?_, ?_⟩
    · induction u with
      | nil => rfl
      | cons t u ih =>
        rw [map_cons, flatten_cons, ← ih fun x hx => h x (mem_cons_of_mem _ hx)]
        rfl
    · intro w hw
      obtain ⟨t, ht, rfl⟩ := mem_map.1 hw
      exact ⟨t, h t ht, rfl⟩

theorem matches_nil (text : List Byte) : Matches [] text := ⟨[], text, rfl, Set.mem_singleton _, nofun⟩

variable {text : List Byte} {its : List Item}

theorem matches_eot : Matches [.eot] text ↔ text = [] := by
  constructor
  · rintro ⟨u, v, rfl, hu, hv⟩
    rw [map_singleton, prod_singleton] at hu
    rw [hv mem_cons_self, show u = [] from hu]
    rfl
  · rintro rfl
    exact ⟨[], [], rfl, by rw [map_singleton, prod_singleton]; exact Set.mem_singleton _, fun _ => rfl⟩

/-- the first item takes a prefix, the others match what follows it -/
theorem matches_cons (it : Item) (hit : it ≠ .eot) :
    Matches (it :: its) text ↔ ∃ u v, text = u ++ v ∧ u ∈ it.lang ∧ Matches its v := by
  have heot : Item.eot ∈ it :: its ↔ .eot ∈ its := by
    rw [mem_cons, or_iff_right hit.symm]
  unfold Matches
  rw [heot, map_cons, prod_cons]
  constructor
  · rintro ⟨u, v, rfl, hu, hv⟩
    obtain ⟨u1, h1, u2, h2, rfl⟩ := Language.mem_mul.1 hu
    exact ⟨u1, u2 ++ v, append_assoc .., h1, u2, v, rfl, h2, hv⟩
  · rintro ⟨u1, w, rfl, h1, u2, v, rfl, h2, hv⟩
    exact ⟨u1 ++ u2, v, (append_assoc ..).symm, Language.mem_mul.2 ⟨u1, h1, u2, h2, rfl⟩, hv⟩

theorem charHere_iff {here : List Byte → Bool} (h : ∀ text, here text = true ↔ Matches its text)
    (c : Byte) (text : List Byte) : charHere here c text = true ↔ Matches (.one c :: its) text := by
  rw [matches_cons (.one c) nofun]
  cases text with
  | nil =>
    refine iff_of_false Bool.false_ne_true ?_
    rintro ⟨u, v, huv, ⟨t, -, rfl⟩, -⟩
    cases huv
  | cons t text =>
    simp only [charHere, Bool.and_eq_true, Bool.or_eq_true, beq_iff_eq, h]
    constructor
    · rintro ⟨hc, hm⟩
      exact ⟨[t], text, rfl, ⟨t, hc.imp_right Eq.symm, rfl⟩, hm⟩
    · rintro ⟨u, v, huv, ⟨t', hfit, rfl⟩, hm⟩
      obtain ⟨rfl, rfl⟩ := List.cons.inj huv
      exact ⟨hfit.imp_right Eq.symm, hm⟩

theorem matchstar_iff {here : List Byte → Bool} (h : ∀ text, here text = true ↔ Matches its text)
    (c : Byte) (text : List Byte) : matchstar here c text = true ↔ Matches (.many c :: its) text := by
  rw [matches_cons (.many c) nofun]
  simp only [mem_lang_many]
  induction text with
  | nil =>
    rw [matchstar, h]
    constructor
    · intro hm
      exact ⟨[], [], rfl, nofun, hm⟩
    · rintro ⟨u, v, huv, -, hm⟩
      obtain ⟨rfl, rfl⟩ := append_eq_nil_iff.1 huv.symm
      exact hm
  | cons t text ih =>
    simp only [matchstar, Bool.or_eq_true, Bool.and_eq_true, beq_iff_eq, h, ih]
    constructor
    · rintro (hm | ⟨hfit, u, v, rfl, hu, hm⟩)
      · exact ⟨[], t :: text, rfl, nofun, hm⟩
      · exact ⟨t :: u, v, rfl, forall_mem_cons.2 ⟨hfit.symm, hu⟩, hm⟩
    · rintro ⟨u, v, huv, hu, hm⟩
      cases u with
      | nil =>
        rw [nil_append] at huv
        exact .inl (huv ▸ hm)
      | cons t' u =>
        obtain ⟨rfl, rfl⟩ := List.cons.inj huv
        obtain ⟨hfit, hu⟩ := forall_mem_cons.1 hu
        exact .inr ⟨hfit.symm, u, v, rfl, hu, hm⟩

theorem matchhere_iff (re text : List Byte) : matchhere re text = true ↔ Matches (items re) text := by
  -- the recursion of the matcher is that of `items`
  induction re using items.induct generalizing text with
  | case1 => exact iff_of_true rfl (matches_nil text)
  | case2 =>
    rw [matchhere, items, if_pos rfl, if_pos rfl, matches_eot, List.isEmpty_iff]
  | case3 c hc =>
    rw [matchhere, items, if_neg hc, if_neg hc]
    exact charHere_iff (fun text => iff_of_true rfl (matches_nil text)) c text
  | case4 c re ih =>
    rw [matchhere, items, if_pos rfl, if_pos rfl]
    exact matchstar_iff ih c text
  | case5 c d re hd ih =>
    rw [matchhere, items, if_neg hd, if_neg hd]
    exact charHere_iff ih c text

theorem matchLoop_iff (re text : List Byte) : matchLoop re text = true ↔ ∃ s, s <:+ text ∧ Matches (items re) s := by
  induction text with
  | nil => simp only [matchLoop, matchhere_iff, suffix_nil, exists_eq_left]
  | cons t text ih =>
    simp only [matchLoop, Bool.or_eq_true, matchhere_iff, ih, suffix_cons_iff, or_and_right, exists_or,
      exists_eq_left]

/-- **match decides the language of its pattern.** -/
theorem match_decides_language (re text : List Byte) : matchRe re text = true ↔
    if re.head? = some CARET then Matches (items re.tail) text else ∃ s, s <:+ text ∧ Matches (items re) s := by
  unfold matchRe
  split_ifs
  · exact matchhere_iff ..
  · exact matchLoop_iff ..

/-- "a*$" in "baa", where the star must not stop at the first place -/
example : matchRe [0x61, STAR, DOLLAR] [0x62, 0x61, 0x61] = true := by decide

/-! ## The lines of a file -/

/-- strchr of ulib.c, as an index -/
def strchr (c : Byte) : List Byte → Option ℕ
  | [] => none
  | x :: s => if x = 0 then none else if x = c then some 0 else (strchr c s).map (· + 1)

/-- the inner loop of grep: p is the rest of the buffer, out what was written; there is one round for each newline -/
def scanLines (re : List Byte) : ℕ → List Byte → List Byte → List Byte × List Byte
  | 0, p, out => (p, out)
  | fuel + 1, p, out =>
    match strchr NEWLINE p with
    | none => (p, out)
    | some q => scanLines re fuel (p.drop (q + 1)) (if matchRe re (p.take q) then out ++ p.take (q + 1) else out)

/-- `sizeof(buf)` -/
def BUFSIZE : ℕ := 1024

/-- what read returns of the unread bytes s, if n are asked for and k are there: at least one, at the end none -/
def read (k n : ℕ) (s : List Byte) : List Byte := s.take (min (max k 1) n)

/-- the rounds of grep's loop, with the bytes each one read and the bytes it wrote; buf is the list of its first m bytes,
s what is not read yet, and k says how much is there at each read -/
def rounds (re : List Byte) : ℕ → (ℕ → ℕ) → List Byte → List Byte → List (List Byte × List Byte)
  | 0, _, _, _ => []
  | fuel + 1, k, buf, s =>
    let chunk := read (k 0) (BUFSIZE - buf.length - 1) s
    if chunk.length = 0 then []
    else
      let b := buf ++ chunk
      let (p, out) := scanLines re b.length b []
      -- p == buf: no newline was found
      (chunk, out) :: rounds re fuel (fun i => k (i + 1)) (if p.length = b.length then [] else p) (s.drop chunk.length)

/-- all rounds on an input; every round but the last reads a byte -/
def grepRounds (re : List Byte) (k : ℕ → ℕ) (input : List Byte) : List (List Byte × List Byte) :=
  rounds re (input.length + 1) k [] input

/-- what grep writes -/
def grep (re : List Byte) (k : ℕ → ℕ) (input : List Byte) : List Byte := (grepRounds re k input).flatMap Prod.snd

/-- a line: text without newline and NUL, and a newline -/
def IsLine (l : List Byte) : Prop := ∃ text, l = text ++ [NEWLINE] ∧ NEWLINE ∉ text ∧ 0 ∉ text

/-- the lines that match, without their newline -/
def selected (re : List Byte) (lines : List (List Byte)) : List (List Byte) := lines.filter fun l => matchRe re l.dropLast

theorem strchr_append {c : Byte} (h0 : 0 ∉ text) (hc : c ∉ text) (hne : c ≠ 0) (s : List Byte) :
    strchr c (text ++ c :: s) = some text.length := by
  induction text with
  | nil =>
    rw [nil_append, strchr, if_neg hne, if_pos rfl]
    rfl
  | cons x text ih =>
    rw [mem_cons, not_or] at h0 hc
    rw [cons_append, strchr, if_neg (Ne.symm h0.1), if_neg (Ne.symm hc.1), ih h0.2 hc.2]
    rfl

theorem strchr_none {c : Byte} {s : List Byte} (hc : c ∉ s) : strchr c s = none := by
  induction s with
  | nil => rfl
  | cons x s ih =>
    rw [mem_cons, not_or] at hc
    rw [strchr, ih hc.2, if_neg (Ne.symm hc.1)]
    split_ifs <;> rfl

/-- the first part of a list of lines: whole lines, and the start of the next one -/
theorem split_lines {lines : List (List Byte)} (hl : ∀ l ∈ lines, IsLine l) {x y : List Byte}
    (h : x ++ y = lines.flatten) (hx : NEWLINE ∈ x) :
    ∃ text x' rest, lines = (text ++ [NEWLINE]) :: rest ∧ x = text ++ NEWLINE :: x' ∧ NEWLINE ∉ text ∧ 0 ∉ text ∧
      x' ++ y = rest.flatten := by
  cases lines with
  | nil =>
    rw [flatten_nil, append_eq_nil_iff] at h
    rw [h.1] at hx
    cases hx
  | cons l rest =>
    obtain ⟨text, rfl, hnl, h0⟩ := hl l mem_cons_self
    rw [flatten_cons, append_assoc] at h
    rcases append_eq_append_iff.1 h with ⟨w, htext, -⟩ | ⟨w, rfl, hw⟩
    · -- x ends within the text of the first line
      rw [htext] at hnl
      exact absurd (mem_append_left w hx) hnl
    · cases w with
      | nil =>
        rw [append_nil] at hx
        exact absurd hx hnl
      | cons c w =>
        obtain ⟨rfl, hrest⟩ := List.cons.inj hw
        exact ⟨text, w, rest, rfl, rfl, hnl, h0, hrest.symm⟩

/-- **The inner loop** takes the whole lines off the buffer and writes those that match. -/
theorem scanLines_run (re : List Byte) (fuel : ℕ) : ∀ {lines : List (List Byte)} {x y : List Byte} (out : List Byte),
    (∀ l ∈ lines, IsLine l) → x ++ y = lines.flatten → x.length ≤ fuel →
      ∃ done rest p, lines = done ++ rest ∧ x = done.flatten ++ p ∧ NEWLINE ∉ p ∧ p ++ y = rest.flatten ∧
        scanLines re fuel x out = (p, out ++ (selected re done).flatten) := by
  induction fuel with
  | zero =>
    intro lines x y out hl h hlen
    obtain rfl := length_eq_zero_iff.1 (Nat.le_zero.1 hlen)
    exact ⟨[], lines, [], rfl, rfl, nofun, h, by simp [scanLines, selected]⟩
  | succ fuel ih =>
    intro lines x y out hl h hlen
    by_cases hx : NEWLINE ∈ x
    · obtain ⟨text, x', rest, rfl, rfl, hnl, h0, hrest⟩ := split_lines hl h hx
      rw [length_append, length_cons] at hlen
      obtain ⟨done, rest', p, rfl, rfl, hp, hpy, hrun⟩ :=
        ih (if matchRe re text then out ++ (text ++ [NEWLINE]) else out)
          (fun l hl' => hl l (mem_cons_of_mem _ hl')) hrest (by omega)
      refine ⟨(text ++ [NEWLINE]) :: done, rest', p, rfl, by simp, hp, hpy, ?_⟩
      have htake : (text ++ NEWLINE :: (done.flatten ++ p)).take (text.length + 1) = text ++ [NEWLINE] := by
        rw [take_append, take_of_length_le (by omega), Nat.add_sub_cancel_left]
        rfl
      have hdrop : (text ++ NEWLINE :: (done.flatten ++ p)).drop (text.length + 1) = done.flatten ++ p := by
        rw [drop_append, drop_of_length_le (by omega), Nat.add_sub_cancel_left]
        rfl
      rw [scanLines, strchr_append h0 hnl (by decide)]
      dsimp only
      rw [take_left, htake, hdrop, hrun]
      unfold selected
      rw [filter_cons, dropLast_concat]
      split_ifs <;> simp
    · refine ⟨[], lines, x, rfl, rfl, hx, h, ?_⟩
      rw [scanLines, strchr_none hx]
      simp [selected]

theorem length_partial {rest : List (List Byte)} {p y : List Byte} (hl : ∀ l ∈ rest, IsLine l)
    (hlen : ∀ l ∈ rest, l.length ≤ BUFSIZE - 1) (hp : NEWLINE ∉ p) (h : p ++ y = rest.flatten) : p.length < BUFSIZE - 1 := by
  cases rest with
  | nil =>
    rw [flatten_nil, append_eq_nil_iff] at h
    rw [h.1]
    decide
  | cons l rest =>
    have hle := hlen l mem_cons_self
    obtain ⟨text, rfl, -, -⟩ := hl l mem_cons_self
    rw [length_append, length_singleton] at hle
    rw [flatten_cons, append_assoc] at h
    rcases append_eq_append_iff.1 h with ⟨w, htext, -⟩ | ⟨w, rfl, hw⟩
    · rw [htext, length_append] at hle
      omega
    · cases w with
      | nil =>
        rw [append_nil]
        omega
      | cons c w =>
        obtain ⟨rfl, -⟩ := List.cons.inj hw
        exact absurd (mem_append_right text mem_cons_self) hp

theorem rounds_output (re : List Byte) (fuel : ℕ) : ∀ {k : ℕ → ℕ} {lines : List (List Byte)} {buf s : List Byte},
    (∀ l ∈ lines, IsLine l) → (∀ l ∈ lines, l.length ≤ BUFSIZE - 1) → NEWLINE ∉ buf → buf ++ s = lines.flatten →
      s.length < fuel → (∀ r ∈ rounds re fuel k buf s, NEWLINE ∈ r.1) →
        (rounds re fuel k buf s).flatMap Prod.snd = (selected re lines).flatten := by
  induction fuel with
  | zero =>
    intro k lines buf s _ _ _ _ hfuel
    omega
  | succ fuel ih =>
    intro k lines buf s hl hlen hbuf h hfuel hread
    have hroom := length_partial hl hlen hbuf h
    have hb : BUFSIZE = 1024 := rfl
    rw [rounds] at hread ⊢
    generalize hc : read (k 0) (BUFSIZE - buf.length - 1) s = chunk at hread ⊢
    have hpre : chunk <+: s := hc ▸ take_prefix ..
    have hs : chunk ++ s.drop chunk.length = s := prefix_iff_eq_append.1 hpre
    dsimp only at hread ⊢
    by_cases hzero : chunk.length = 0
    · -- there is always room in the buffer, so the input is read
      have hnil : s = [] := by
        rw [← hc, read, length_take] at hzero
        exact length_eq_zero_iff.1 (by omega)
      rw [if_pos hzero]
      have hlines : lines = [] := by
        cases lines with
        | nil => rfl
        | cons l lines =>
          obtain ⟨text, rfl, -, -⟩ := hl l mem_cons_self
          rw [hnil, append_nil] at h
          rw [h] at hbuf
          simp at hbuf
      rw [hlines]
      rfl
    · rw [if_neg hzero] at hread ⊢
      obtain ⟨done, rest, p, rfl, hx, hp, hpy, hrun⟩ := scanLines_run re (buf ++ chunk).length []
        hl (x := buf ++ chunk) (y := s.drop chunk.length) (by rw [append_assoc, hs, h]) le_rfl
      rw [hrun, nil_append] at hread ⊢
      dsimp only at hread ⊢
      have hnl : NEWLINE ∈ buf ++ chunk := mem_append_right _ (hread _ mem_cons_self)
      have hne : p.length ≠ (buf ++ chunk).length := by
        rw [hx, length_append]
        intro heq
        have hd : done.flatten = [] := length_eq_zero_iff.1 (by omega)
        rw [hx, hd, nil_append] at hnl
        exact hp hnl
      rw [if_neg hne] at hread ⊢
      have hdrop : (s.drop chunk.length).length < fuel := by
        have hle := hpre.length_le
        rw [length_drop]
        omega
      rw [flatMap_cons, ih (fun l hl' => hl l (mem_append_right _ hl'))
        (fun l hl' => hlen l (mem_append_right _ hl')) hp hpy hdrop fun r hr => hread r (mem_cons_of_mem _ hr)]
      simp [selected]

theorem scanLines_length (re : List Byte) (fuel : ℕ) : ∀ p out,
    (scanLines re fuel p out).1.length + (scanLines re fuel p out).2.length ≤ p.length + out.length := by
  induction fuel with
  | zero => exact fun p out => le_rfl
  | succ fuel ih =>
    intro p out
    rw [scanLines]
    cases strchr NEWLINE p with
    | none => exact le_rfl
    | some q =>
      refine (ih _ _).trans ?_
      rw [length_drop]
      split_ifs
      · rw [length_append, length_take]
        omega
      · omega

theorem rounds_le (re : List Byte) (fuel : ℕ) : ∀ (k : ℕ → ℕ) (buf s : List Byte),
    ((rounds re fuel k buf s).flatMap Prod.snd).length ≤ buf.length + s.length := by
  induction fuel with
  | zero => exact fun k buf s => Nat.zero_le _
  | succ fuel ih =>
    intro k buf s
    rw [rounds]
    generalize hc : read (k 0) (BUFSIZE - buf.length - 1) s = chunk
    have hle : chunk.length ≤ s.length := (hc ▸ take_prefix .. : chunk <+: s).length_le
    dsimp only
    by_cases hzero : chunk.length = 0
    · rw [if_pos hzero]
      exact Nat.zero_le _
    · rw [if_neg hzero]
      have hscan := scanLines_length re (buf ++ chunk).length (buf ++ chunk) []
      generalize scanLines re (buf ++ chunk).length (buf ++ chunk) [] = x at hscan ⊢
      have hkeep : (if x.1.length = (buf ++ chunk).length then [] else x.1).length ≤ x.1.length := by
        split_ifs
        · exact Nat.zero_le _
        · exact le_rfl
      have hrest := ih (fun i => k (i + 1)) (if x.1.length = (buf ++ chunk).length then [] else x.1) (s.drop chunk.length)
      rw [length_drop] at hrest
      rw [length_append, length_nil] at hscan
      rw [flatMap_cons, length_append]
      dsimp only
      omega

/-- where a read brings no newline, what is in the buffer is lost -/
theorem rounds_lt (re : List Byte) (fuel : ℕ) : ∀ {k : ℕ → ℕ} {lines : List (List Byte)} {buf s : List Byte},
    (∀ l ∈ lines, IsLine l) → NEWLINE ∉ buf → buf ++ s = lines.flatten → (∃ r ∈ rounds re fuel k buf s, NEWLINE ∉ r.1) →
      ((rounds re fuel k buf s).flatMap Prod.snd).length < buf.length + s.length := by
  induction fuel with
  | zero =>
    rintro k lines buf s _ _ _ ⟨r, hr, -⟩
    cases hr
  | succ fuel ih =>
    rintro k lines buf s hl hbuf h ⟨r, hr, hno⟩
    rw [rounds] at hr ⊢
    generalize hc : read (k 0) (BUFSIZE - buf.length - 1) s = chunk at hr ⊢
    have hpre : chunk <+: s := hc ▸ take_prefix ..
    have hs : chunk ++ s.drop chunk.length = s := prefix_iff_eq_append.1 hpre
    have hle := hpre.length_le
    dsimp only at hr ⊢
    by_cases hzero : chunk.length = 0
    · rw [if_pos hzero] at hr
      cases hr
    · rw [if_neg hzero] at hr ⊢
      obtain ⟨done, rest, p, rfl, hx, hp, hpy, hrun⟩ := scanLines_run re (buf ++ chunk).length []
        hl (x := buf ++ chunk) (y := s.drop chunk.length) (by rw [append_assoc, hs, h]) le_rfl
      have hlen := congrArg length hx
      rw [length_append, length_append] at hlen
      rw [hrun, nil_append] at hr ⊢
      dsimp only at hr ⊢
      rw [flatMap_cons, length_append]
      have hsel : (selected re done).flatten.length ≤ done.flatten.length := (filter_sublist.flatten).length_le
      by_cases hnl : NEWLINE ∈ chunk
      · have hne : p.length ≠ (buf ++ chunk).length := fun heq => by
          rw [length_append] at heq
          have hd : done.flatten = [] := length_eq_zero_iff.1 (by omega)
          rw [hd, nil_append] at hx
          exact hp (hx ▸ mem_append_right buf hnl)
        rw [if_neg hne] at hr ⊢
        have hr' := (mem_cons.1 hr).resolve_left fun heq => hno (heq ▸ hnl)
        have hrest := ih (fun l hl' => hl l (mem_append_right _ hl')) hp hpy ⟨r, hr', hno⟩
        rw [length_drop] at hrest
        dsimp only
        omega
      · have hnone : done = [] := by
          cases done with
          | nil => rfl
          | cons l done =>
            obtain ⟨text, rfl, -, -⟩ := hl l (mem_append_left _ mem_cons_self)
            have hmem : NEWLINE ∈ buf ++ chunk := by
              rw [hx]
              simp
            exact absurd hmem (by rw [mem_append]; tauto)
        rw [hnone, flatten_nil, nil_append] at hx
        rw [if_pos (by rw [hx])]
        have hrest := rounds_le re fuel (fun i => k (i + 1)) [] (s.drop chunk.length)
        rw [length_nil, length_drop] at hrest
        rw [hnone] at hsel ⊢
        simp only [selected, filter_nil, flatten_nil, length_nil]
        omega

theorem scanLines_fst (re re' : List Byte) (fuel : ℕ) : ∀ p out out',
    (scanLines re fuel p out).1 = (scanLines re' fuel p out').1 := by
  induction fuel with
  | zero => exact fun p out out' => rfl
  | succ fuel ih =>
    intro p out out'
    rw [scanLines, scanLines]
    cases strchr NEWLINE p with
    | none => rfl
    | some q => exact ih ..

theorem rounds_fst (re re' : List Byte) (fuel : ℕ) : ∀ k buf s,
    (rounds re fuel k buf s).map Prod.fst = (rounds re' fuel k buf s).map Prod.fst := by
  induction fuel with
  | zero => exact fun k buf s => rfl
  | succ fuel ih =>
    intro k buf s
    rw [rounds, rounds]
    dsimp only
    by_cases hzero : (read (k 0) (BUFSIZE - buf.length - 1) s).length = 0
    · rw [if_pos hzero, if_pos hzero]
    · rw [if_neg hzero, if_neg hzero, map_cons, map_cons, ih, scanLines_fst re re' _ _ [] []]

theorem selected_all (lines : List (List Byte)) : selected [] lines = lines := by
  have hall : ∀ text, matchLoop [] text = true := fun text => by
    cases text <;> rfl
  exact filter_eq_self.2 fun l _ => hall _

/-- **grep prints the lines that match**, whatever the pattern, if and only if every part of the input that read returns has a
newline. -/
theorem grep_prints_matching_lines (k : ℕ → ℕ) (lines : List (List Byte)) (hl : ∀ l ∈ lines, IsLine l)
    (hlen : ∀ l ∈ lines, l.length ≤ BUFSIZE - 1) : (∀ re, grep re k lines.flatten = (selected re lines).flatten) ↔
      ∀ re, ∀ part ∈ (grepRounds re k lines.flatten).map Prod.fst, NEWLINE ∈ part := by
  constructor
  · intro hall re part hpart
    -- the empty pattern selects every line, so all that is read has to be written
    rw [grepRounds, rounds_fst re []] at hpart
    obtain ⟨r, hr, rfl⟩ := mem_map.1 hpart
    by_contra hno
    have hlt := @rounds_lt [] (lines.flatten.length + 1) k _ [] _ hl nofun rfl ⟨r, hr, hno⟩
    have heq := congrArg length (hall [])
    rw [selected_all] at heq
    unfold grep grepRounds at heq
    rw [length_nil] at hlt
    omega
  · intro hread re
    exact rounds_output re _ hl hlen nofun rfl (Nat.lt_succ_self _) fun r hr => hread re _ (mem_map_of_mem hr)

/-- "ab" and "b", read at once, with pattern "^b" -/
theorem grep_prints_matching_lines_example :
    grep [CARET, 0x62] (fun _ => 512) [[0x61, 0x62, NEWLINE], [0x62, NEWLINE]].flatten = [0x62, NEWLINE] := by
  have hl : ∀ l ∈ [[0x61, 0x62, NEWLINE], [0x62, NEWLINE]], IsLine l := by
    intro l hl
    simp only [mem_cons, not_mem_nil, or_false] at hl
    rcases hl with rfl | rfl
    · exact ⟨[0x61, 0x62], rfl, by decide, by decide⟩
    · exact ⟨[0x62], rfl, by decide, by decide⟩
  refine (grep_prints_matching_lines (fun _ => 512) [[0x61, 0x62, NEWLINE], [0x62, NEWLINE]] hl (by decide)).2
    (fun re => ?_) [CARET, 0x62]
  rw [grepRounds, rounds_fst re []]
  decide

/-- **A line that arrives in two parts is lost.** "ab", read as "a" and "b" with its newline, does not match "^a". -/
theorem short_read_loses_line : IsLine [0x61, 0x62, NEWLINE] ∧
    grep [CARET, 0x61] (fun i => if i = 0 then 1 else 512) [0x61, 0x62, NEWLINE] = [] ∧
      selected [CARET, 0x61] [[0x61, 0x62, NEWLINE]] = [[0x61, 0x62, NEWLINE]] := by
  refine ⟨⟨[0x61, 0x62], rfl, by decide, by decide⟩, ?_, ?_⟩ <;> decide

end Xv6.Grep
