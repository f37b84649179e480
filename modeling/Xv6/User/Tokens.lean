/-
sh.c: where the tokens of a parsed command lie in its line.

The parser moves forward only: what it records lies between the place where a function starts and the place where it stops
(`Laid`). Two tokens are therefore apart, with at least one character between them, and the NUL that nulterminate writes at
the end of one falls into no other.

- `tokens_survive_nulterminate`: the tokens of every accepted line are apart, and each is read back from the buffer as it was.
-/
import Xv6.User.Shell

namespace Xv6.Shell

open Lib List

/-- where q points to -/
def Span.start (line : List Char) (w : Span) : ℕ := line.length - w.q.length

/-- one of the two ends before the other one starts, counted from the end of the line -/
def Span.Apart (w v : Span) : Prop :=
  v.q.length + w.text.length ≤ w.q.length ∨ w.q.length + v.text.length ≤ v.q.length

theorem Span.Apart.symm {w v : Span} (h : w.Apart v) : v.Apart w := Or.symm h

/-- the strings lie between the place with lo characters left and the one with hi left, and are apart -/
structure Laid (lo : ℕ) (ws : List Span) (hi : ℕ) : Prop where
  start : ∀ w ∈ ws, w.q.length ≤ lo
  stop : ∀ w ∈ ws, hi + w.text.length ≤ w.q.length
  apart : ws.Pairwise Span.Apart

variable {lo hi : ℕ} {ws : List Span}

theorem Laid.nil (lo hi : ℕ) : Laid lo [] hi := ⟨nofun, nofun, .nil⟩

theorem Laid.mono {lo' hi' : ℕ} (h : Laid lo ws hi) (hlo : lo ≤ lo') (hhi : hi' ≤ hi) : Laid lo' ws hi' :=
  ⟨fun w hw => (h.start w hw).trans hlo, fun w hw => (Nat.add_le_add_right hhi _).trans (h.stop w hw), h.apart⟩

theorem Laid.subperm {ws' : List Span} (h : Laid lo ws hi) (hp : ws'.Subperm ws) : Laid lo ws' hi := by
  refine ⟨fun w hw => h.start w (hp.subset hw), fun w hw => h.stop w (hp.subset hw), ?_⟩
  obtain ⟨l, hl, hsub⟩ := hp
  exact (hl.pairwise_iff fun {w v} hwv => Span.Apart.symm hwv).1 (h.apart.sublist hsub)

theorem Laid.append {mid : ℕ} {ws' : List Span} (h : Laid lo ws mid) (h' : Laid mid ws' hi) (hlo : mid ≤ lo) (hhi : hi ≤ mid) :
    Laid lo (ws ++ ws') hi := by
  refine ⟨fun w hw => ?_, fun w hw => ?_, pairwise_append.2 ⟨h.apart, h'.apart, fun w hw v hv => ?_⟩⟩
  · rcases mem_append.1 hw with hw | hw
    · exact h.start w hw
    · exact (h'.start w hw).trans hlo
  · rcases mem_append.1 hw with hw | hw
    · exact (Nat.add_le_add_right hhi _).trans (h.stop w hw)
    · exact h'.stop w hw
  · exact .inl ((Nat.add_le_add_right (h'.start v hv) _).trans (h.stop w hw))

/-! ## Tokens -/

theorem skip_length (s : List Char) : (skip s).length ≤ s.length := (skip_suffix s).length_le

theorem gettoken_le (s : List Char) : (gettoken s).2.length ≤ s.length := by
  cases hg : gettoken s with
  | mk tok r =>
    cases tok with
    | some t => exact (gettoken_length hg).le
    | none =>
      cases view s with
      | done _ h =>
        rw [h] at hg
        cases hg
        exact Nat.zero_le _
      | sym k r' _ _ h | word w r' _ _ _ _ _ h =>
        rw [h] at hg
        cases hg

/-- a word lies between the place where gettoken starts and the one where it stops -/
theorem gettoken_laid {s r : List Char} {w : Span} (h : gettoken s = (some (.word w), r)) : Laid s.length [w] r.length := by
  cases view s with
  | done _ hg | sym k r' _ _ hg =>
    rw [hg] at h
    cases h
  | word w' r' hq hskip _ _ _ hg =>
    rw [hg] at h
    cases h
    have hle := skip_length s
    have hr := skip_length r'
    have hlen := congrArg List.length hskip
    rw [length_append] at hlen
    refine ⟨fun v hv => ?_, fun v hv => ?_, pairwise_singleton ..⟩
    · rw [mem_singleton.1 hv, hq]
      exact hle
    · rw [mem_singleton.1 hv, hq]
      omega

theorem strings_pushArg {α : Type} (cmd : Cmd α) (w : α) : (cmd.pushArg w).strings.Subperm (cmd.strings ++ [w]) := by
  induction cmd with
  | exec argv => exact List.Subperm.refl _
  | redir cmd file mode fd ih =>
    -- the file stays behind the arguments
    refine ((subperm_append_right [file]).2 ih).trans (List.Perm.subperm ?_)
    rw [append_assoc]
    refine (List.Perm.append_left _ (perm_append_comm ..)).trans ?_
    exact List.Perm.of_eq (append_assoc ..).symm
  | pipe left right | list left right | back cmd => exact (sublist_append_left ..).subperm

/-! ## The functions of the parser -/

/-- after a function that started with lo characters left, or with a command from there on -/
def Placed (lo : ℕ) (s : List Char) (x : Cmd Span × List Char) : Prop :=
  x.2.length ≤ s.length ∧ Laid lo x.1.strings x.2.length

abbrev AnyErr (_ : Err) : Prop := True

theorem redirs_laid (fuel : ℕ) : ∀ {cmd : Cmd Span} {s : List Char}, s.length ≤ lo → Laid lo cmd.strings s.length →
    Ends AnyErr (Placed lo s) (parseredirs fuel cmd s) := by
  induction fuel with
  | zero => exact fun _ _ => trivial
  | succ fuel ih =>
    intro cmd s hs hcmd
    unfold parseredirs
    split_ifs with hp
    · have h1 := gettoken_le s
      cases hg : gettoken s with
      | mk tok s1 =>
        rw [hg] at h1
        dsimp only at h1 ⊢
        have h2 := gettoken_le s1
        cases hg' : gettoken s1 with
        | mk tok' s2 =>
          rw [hg'] at h2
          rcases tok' with - | - | w
          · trivial
          · trivial
          · have hnext : ∀ cmd' : Cmd Span, Laid lo cmd'.strings s2.length →
                Ends AnyErr (Placed lo s) (parseredirs fuel cmd' s2) := fun cmd' h =>
              (ih (h2.trans (h1.trans hs)) h).mono fun x hx => ⟨hx.1.trans (h2.trans h1), hx.2⟩
            have hredir : ∀ mode fd, Laid lo (Cmd.redir cmd w mode fd).strings s2.length := fun _ _ =>
              (hcmd.mono le_rfl h1).append (gettoken_laid hg') (h1.trans hs) h2
            have hsame := hnext _ (hcmd.mono le_rfl (h2.trans h1))
            rcases tok with - | k | _
            · exact hsame
            · cases k with
              | lt | gt | gtgt => exact hnext _ (hredir _ _)
              | _ => exact hsame
            · exact hsame
    · exact ⟨skip_length s, hcmd.mono le_rfl (skip_length s)⟩

theorem args_laid (fuel : ℕ) : ∀ {ret : Cmd Span} {argc : ℕ} {s : List Char}, s.length ≤ lo →
    Laid lo ret.strings s.length → Ends AnyErr (Placed lo s) (parseargs fuel ret argc s) := by
  induction fuel with
  | zero => exact fun _ _ => trivial
  | succ fuel ih =>
    intro ret argc s hs hret
    unfold parseargs
    by_cases hp : peek s ['|', ')', '&', ';'] = true
    · rw [if_pos hp]
      exact ⟨skip_length s, hret.mono le_rfl (skip_length s)⟩
    · rw [if_neg hp]
      have h1 := gettoken_le s
      cases hg : gettoken s with
      | mk tok s1 =>
        rw [hg] at h1
        rcases tok with - | - | w
        · exact ⟨h1, hret.mono le_rfl h1⟩
        · trivial
        · dsimp only at h1 ⊢
          split_ifs
          · trivial
          · have hpush : Laid lo (ret.pushArg w).strings s1.length :=
              (hret.append (gettoken_laid hg) hs h1).subperm (strings_pushArg ret w)
            refine (redirs_laid fuel (h1.trans hs) hpush).bind ?_
            rintro ⟨ret', s'⟩ ⟨hlen, hlaid⟩
            exact (ih (hlen.trans (h1.trans hs)) hlaid).mono fun x hx => ⟨hx.1.trans (hlen.trans h1), hx.2⟩

theorem amps_laid (fuel : ℕ) : ∀ {cmd : Cmd Span} {s : List Char}, Laid lo cmd.strings s.length →
    Ends AnyErr (Placed lo s) (parseamps fuel cmd s) := by
  induction fuel with
  | zero => exact fun _ => trivial
  | succ fuel ih =>
    intro cmd s hcmd
    unfold parseamps
    split_ifs with hp
    · have hback : Laid lo (Cmd.back cmd).strings (gettoken s).2.length := hcmd.mono le_rfl (gettoken_le s)
      exact (ih hback).mono fun x hx => ⟨hx.1.trans (gettoken_le s), hx.2⟩
    · exact ⟨skip_length s, hcmd.mono le_rfl (skip_length s)⟩

/-- the four functions with this fuel -/
structure AllLaid (fuel : ℕ) : Prop where
  parseline : ∀ s, Ends AnyErr (Placed s.length s) (parseline fuel s)
  parsepipe : ∀ s, Ends AnyErr (Placed s.length s) (parsepipe fuel s)
  parseexec : ∀ s, Ends AnyErr (Placed s.length s) (parseexec fuel s)
  parseblock : ∀ s, Ends AnyErr (Placed s.length s) (parseblock fuel s)

/-- two commands, the second one from behind the symbol that follows the first -/
theorem Placed.append {s s1 : List Char} {cmd : Cmd Span} {x : Cmd Span × List Char} (h : Placed s.length s (cmd, s1))
    (hx : Placed (gettoken s1).2.length (gettoken s1).2 x) :
    x.2.length ≤ s.length ∧ Laid s.length (cmd.strings ++ x.1.strings) x.2.length := by
  have htok := gettoken_le s1
  have hle : (gettoken s1).2.length ≤ s.length := htok.trans h.1
  exact ⟨hx.1.trans hle, (h.2.mono le_rfl htok).append hx.2 hle hx.1⟩

theorem allLaid (fuel : ℕ) : AllLaid fuel := by
  induction fuel with
  | zero => exact ⟨fun _ => trivial, fun _ => trivial, fun _ => trivial, fun _ => trivial⟩
  | succ fuel ih =>
    refine ⟨fun s => ?_, fun s => ?_, fun s => ?_, fun s => ?_⟩
    · rw [Shell.parseline]
      refine (ih.parsepipe s).bind ?_
      rintro ⟨cmd, s1⟩ ⟨hlen1, hlaid1⟩
      refine (amps_laid fuel hlaid1).bind ?_
      rintro ⟨cmd2, s2⟩ ⟨hlen2, hlaid2⟩
      have h2 : Placed s.length s (cmd2, s2) := ⟨hlen2.trans hlen1, hlaid2⟩
      dsimp only
      split_ifs with hp
      · exact (ih.parseline _).bind fun x hx => Ends.pure (h2.append hx)
      · exact ⟨(skip_length s2).trans h2.1, h2.2.mono le_rfl (skip_length s2)⟩
    · rw [Shell.parsepipe]
      refine (ih.parseexec s).bind ?_
      rintro ⟨cmd, s1⟩ h1
      dsimp only
      split_ifs with hp
      · exact (ih.parsepipe _).bind fun x hx => Ends.pure (h1.append hx)
      · exact ⟨(skip_length s1).trans h1.1, h1.2.mono le_rfl (skip_length s1)⟩
    · rw [Shell.parseexec]
      split_ifs with hp
      · exact ih.parseblock s
      · refine (redirs_laid fuel le_rfl (Laid.nil ..)).bind ?_
        rintro ⟨ret, s1⟩ ⟨hlen, hlaid⟩
        exact (args_laid fuel hlen hlaid).mono fun x hx => ⟨hx.1.trans hlen, hx.2⟩
    · rw [Shell.parseblock]
      split_ifs with hp
      · refine (ih.parseline _).bind ?_
        rintro ⟨cmd, s1⟩ ⟨hlen, hlaid⟩
        have h0 := gettoken_le s
        have h1 := gettoken_le s1
        dsimp only at hlen hlaid ⊢
        split_ifs with hp2
        · refine (redirs_laid fuel (h1.trans (hlen.trans h0)) (hlaid.mono h0 h1)).mono fun x hx => ?_
          exact ⟨hx.1.trans (h1.trans (hlen.trans h0)), hx.2⟩
        · trivial
      · trivial

/-! ## Tokens and NULs -/

theorem Span.Ok.lt_of_le {line : List Char} {w v : Span} (hw : w.Ok line) (hv : v.Ok line)
    (h : v.q.length + w.text.length ≤ w.q.length) : v.q.length + w.text.length < w.q.length := by
  refine lt_of_le_of_ne h fun heq => ?_
  obtain ⟨r, hr, hrest⟩ := hw.rest
  have hsuf : r <:+ line := (suffix_append w.text r).trans (hr ▸ hw.suffix)
  have hlen : v.q.length = r.length := by
    rw [hr, length_append] at heq
    omega
  have hvr : v.q = r := List.IsSuffix.eq_of_length (suffix_of_suffix_length_le hv.suffix hsuf hlen.le) hlen
  obtain ⟨r', hr', -⟩ := hv.rest
  obtain ⟨c, t, ht⟩ := exists_cons_of_ne_nil hv.ne
  have hplain := hv.plain c (by rw [ht]; exact mem_cons_self)
  have hnot := hrest c (t ++ r') (by rw [← hvr, hr', ht]; rfl)
  rw [hplain] at hnot
  cases hnot

theorem Span.Ok.line_eq {line : List Char} {w : Span} (h : w.Ok line) : line.drop (w.start line) = w.q :=
  (suffix_iff_eq_drop.1 h.suffix).symm

theorem Span.Ok.text_eq {line : List Char} {w : Span} (h : w.Ok line) :
    (line.drop (w.start line)).take (w.stop line - w.start line) = w.text := by
  obtain ⟨r, hr, -⟩ := h.rest
  have hlen : w.stop line - w.start line = w.text.length := by
    unfold Span.stop Span.start
    omega
  rw [h.line_eq, hlen, hr, take_left]

/-- **NUL-termination does not damage the command.** -/
theorem tokens_survive_nulterminate (line : List Char) (hnul : '\x00' ∉ line) (cmd : Cmd Span) (s : List Char)
    (h : parseline (4 * line.length + 6) line = .ok (cmd, s)) :
    (cmd.strings.Pairwise fun w v => w.stop line < v.start line ∨ v.stop line < w.start line) ∧
      ∀ w ∈ cmd.strings, w.start line < w.stop line ∧ w.stop line ≤ line.length ∧
        cstring (nulterminate line cmd (load line)) line.length (w.start line) =
          (line.drop (w.start line)).take (w.stop line - w.start line) := by
  have hlex := length_lex_le line.length line le_rfl
  have hsound := (sound hnul (4 * line.length + 6)).parseline line (suffix_refl line) (by omega)
  have hlaid := (allLaid (4 * line.length + 6)).parseline line
  rw [h] at hsound hlaid
  obtain ⟨-, -, -, -, hall⟩ := hsound
  have hok : ∀ w ∈ cmd.strings, w.Ok line := hall.strings
  have hbound : ∀ w ∈ cmd.strings, w.text.length ≤ w.q.length ∧ w.q.length ≤ line.length := by
    intro w hw
    obtain ⟨r, hr, -⟩ := (hok w hw).rest
    have := congrArg List.length hr
    rw [length_append] at this
    exact ⟨by omega, (hok w hw).suffix.length_le⟩
  refine ⟨?_, fun w hw => ⟨?_, ?_, ?_⟩⟩
  · refine List.Pairwise.imp_of_mem ?_ hlaid.2.apart
    intro w v hw hv hapart
    have hbw := hbound w hw
    have hbv := hbound v hv
    unfold Span.stop Span.start
    rcases hapart with hle | hle
    · have := (hok w hw).lt_of_le (hok v hv) hle
      omega
    · have := (hok v hv).lt_of_le (hok w hw) hle
      omega
  · have := length_pos_iff.2 (hok w hw).ne
    unfold Span.stop Span.start
    omega
  · have := hbound w hw
    unfold Span.stop
    omega
  · rw [(hok w hw).text_eq]
    exact cstring_span hnul hall w hw

/-- the tokens of "ls >x" -/
def lsSpan : Span := ⟨['l', 's', ' ', '>', 'x'], ['l', 's']⟩
def outSpan : Span := ⟨['x'], ['x']⟩

/-- "ls" ends before "x" starts -/
theorem tokens_survive_nulterminate_example : lsSpan.stop ['l', 's', ' ', '>', 'x'] < outSpan.start ['l', 's', ' ', '>', 'x'] ∨
      outSpan.stop ['l', 's', ' ', '>', 'x'] < lsSpan.start ['l', 's', ' ', '>', 'x'] := by
  have h : parseline (4 * 5 + 6) ['l', 's', ' ', '>', 'x'] = .ok (.redir (.exec [lsSpan]) outSpan 0x201 1, []) := by rfl
  have hpair := (tokens_survive_nulterminate ['l', 's', ' ', '>', 'x'] (by decide) _ _ h).1
  exact rel_of_pairwise_cons hpair (mem_singleton.2 rfl)

end Xv6.Shell
