/-
sh.c: the parser of the shell.

A line is the text before its NUL. A pointer into it is the rest of the line from there on, so `*ps` is an argument and a
result of every function. A counted string (q, eq) is the pointer q and the text up to eq. The recursive descent takes fuel;
parsecmd starts with enough. EXEC nodes grow while they are already wrapped by redirections: `pushArg` reaches through them.
nulterminate writes the NULs into the buffer, and the strings of the result are read from it.

The grammar is the one of the recursive descent, written as derivations (`Deriv`) with the tokens they consist of and the
command they denote:

  line ::= pipe {'&'} [';' line]     pipe ::= exec ['|' pipe]
  exec ::= '(' line ')' redirs  |  redirs {word redirs}, with at most MAXARGS - 1 words     redirs ::= {('<' | '>' | '>>') word}

- `parsecmd_grammar`: parsecmd returns the command of every derivation, however its tokens are printed, panics on every other
  line, and does not run out of fuel.
-/
import Mathlib.Data.List.DropRight
import Mathlib.Data.List.GetD
import Xv6.Fs.Sysfile
import Xv6.Lib.StateProg

namespace Xv6.Shell

open Lib List
open Sysfile (O_RDONLY O_WRONLY O_CREATE)
open List (length_append exists_cons_of_ne_nil mem_cons_self foldl_append mem_append_left length_cons cons_append append_assoc
  append_nil)

/-! ## Tokens -/

/-- the characters of a list are checked one by one, not all characters there are -/
instance decidableForallChars {p : Char → Prop} [DecidablePred p] (l : List Char) : Decidable (∀ c ∈ l, p c) :=
  List.decidableBAll p l

def MAXARGS : ℕ := 10

def whitespace : List Char := [' ', '\t', '\r', '\n', '\x0b']

/-- the tokens that gettoken returns as symbols; '+' is `gtgt` -/
inductive Sym where
  | bar
  | lpar
  | rpar
  | semi
  | amp
  | lt
  | gt
  | gtgt
  deriving DecidableEq

/-- the characters of `symbols`, and the token that each of them begins -/
def symbol (c : Char) : Option Sym :=
  if c = '|' then some .bar
  else if c = '(' then some .lpar
  else if c = ')' then some .rpar
  else if c = ';' then some .semi
  else if c = '&' then some .amp
  else if c = '<' then some .lt
  else if c = '>' then some .gt
  else none

/-- neither in `whitespace` nor in `symbols` -/
def isPlain (c : Char) : Bool := !whitespace.contains c && (symbol c).isNone

def skip (s : List Char) : List Char := s.dropWhile whitespace.contains

/-- a counted string: the line from q on, and the text up to eq -/
structure Span where
  q : List Char
  text : List Char

/-- a token: a symbol, or 'a' with its string -/
inductive Tok (α : Type) where
  | sym (k : Sym)
  | word (w : α)

/-- `none` is 0, the end of the line -/
def gettoken (s : List Char) : Option (Tok Span) × List Char :=
  match skip s with
  | [] => (none, [])
  | c :: t =>
    match symbol c with
    | some .gt => if t.head? = some '>' then (some (.sym .gtgt), skip t.tail) else (some (.sym .gt), skip t)
    | some k => (some (.sym k), skip t)
    | none => (some (.word ⟨c :: t, (c :: t).takeWhile isPlain⟩), skip ((c :: t).dropWhile isPlain))

def peek (s : List Char) (toks : List Char) : Bool :=
  match skip s with
  | [] => false
  | c :: _ => toks.contains c

/-! ## Commands and the parser -/

inductive Cmd (α : Type) where
  | exec (argv : List α)
  | redir (cmd : Cmd α) (file : α) (mode : Word) (fd : ℕ)
  | pipe (left right : Cmd α)
  | list (left right : Cmd α)
  | back (cmd : Cmd α)

/-- a further argument of the EXEC node under the redirections -/
def Cmd.pushArg {α : Type} : Cmd α → α → Cmd α
  | .exec argv, w => .exec (argv ++ [w])
  | .redir cmd file mode fd, w => .redir (cmd.pushArg w) file mode fd
  | cmd, _ => cmd

/-- the panics of the parser, and the end of the fuel -/
inductive Err where
  | fuel
  /-- "missing file for redirection" -/
  | missingFile
  /-- "syntax" -/
  | syntaxError
  /-- "syntax - missing )" -/
  | missingParen
  /-- "parseblock" -/
  | parseblock
  /-- "too many args" -/
  | tooManyArgs
  deriving DecidableEq

def parseredirs : ℕ → Cmd Span → List Char → Except Err (Cmd Span × List Char)
  | 0, _, _ => .error .fuel
  | fuel + 1, cmd, s =>
    if peek s ['<', '>'] then
      match gettoken s with
      | (tok, s) =>
        match gettoken s with
        | (some (.word file), s) =>
          match tok with
          | some (.sym .lt) => parseredirs fuel (.redir cmd file O_RDONLY 0) s
          | some (.sym .gt) => parseredirs fuel (.redir cmd file (O_WRONLY ||| O_CREATE) 1) s
          | some (.sym .gtgt) => parseredirs fuel (.redir cmd file (O_WRONLY ||| O_CREATE) 1) s
          | _ => parseredirs fuel cmd s
        | _ => .error .missingFile
    else .ok (cmd, skip s)

/-- the loop of parseexec -/
def parseargs : ℕ → Cmd Span → ℕ → List Char → Except Err (Cmd Span × List Char)
  | 0, _, _, _ => .error .fuel
  | fuel + 1, ret, argc, s =>
    if peek s ['|', ')', '&', ';'] then .ok (ret, skip s)
    else
      match gettoken s with
      | (none, s) => .ok (ret, s)
      | (some (.word w), s) =>
        if MAXARGS ≤ argc + 1 then .error .tooManyArgs
        else do
          let (ret, s) ← parseredirs fuel (ret.pushArg w) s
          parseargs fuel ret (argc + 1) s
      | (some (.sym _), _) => .error .syntaxError

/-- the loop of parseline -/
def parseamps : ℕ → Cmd Span → List Char → Except Err (Cmd Span × List Char)
  | 0, _, _ => .error .fuel
  | fuel + 1, cmd, s => if peek s ['&'] then parseamps fuel (.back cmd) (gettoken s).2 else .ok (cmd, skip s)

mutual

def parseline : ℕ → List Char → Except Err (Cmd Span × List Char)
  | 0, _ => .error .fuel
  | fuel + 1, s => do
    let (cmd, s) ← parsepipe fuel s
    let (cmd, s) ← parseamps fuel cmd s
    if peek s [';'] then
      let (right, s) ← parseline fuel (gettoken s).2
      return (.list cmd right, s)
    else return (cmd, skip s)

def parsepipe : ℕ → List Char → Except Err (Cmd Span × List Char)
  | 0, _ => .error .fuel
  | fuel + 1, s => do
    let (cmd, s) ← parseexec fuel s
    if peek s ['|'] then
      let (right, s) ← parsepipe fuel (gettoken s).2
      return (.pipe cmd right, s)
    else return (cmd, skip s)

def parseexec : ℕ → List Char → Except Err (Cmd Span × List Char)
  | 0, _ => .error .fuel
  | fuel + 1, s =>
    if peek s ['('] then parseblock fuel s
    else do
      let (ret, s) ← parseredirs fuel (.exec []) s
      parseargs fuel ret 0 s

def parseblock : ℕ → List Char → Except Err (Cmd Span × List Char)
  | 0, _ => .error .fuel
  | fuel + 1, s =>
    if peek s ['('] then do
      let (cmd, s) ← parseline fuel (gettoken s).2
      if peek s [')'] then parseredirs fuel cmd (gettoken s).2 else .error .missingParen
    else .error .parseblock

end

/-- the buffer of a line, NUL behind it -/
def load (line : List Char) : ℕ → Char := fun i => line.getD i '\x00'

/-- where eq points to -/
def Span.stop (line : List Char) (w : Span) : ℕ := line.length - w.q.length + w.text.length

def nulterminate (line : List Char) : Cmd Span → (ℕ → Char) → ℕ → Char
  | .exec argv, buf => argv.foldl (fun buf w => update buf (w.stop line) '\x00') buf
  | .redir cmd file _ _, buf => update (nulterminate line cmd buf) (file.stop line) '\x00'
  | .pipe left right, buf => nulterminate line right (nulterminate line left buf)
  | .list left right, buf => nulterminate line right (nulterminate line left buf)
  | .back cmd, buf => nulterminate line cmd buf

/-- the string at position i of the buffer, up to its NUL; n bounds the length -/
def cstring (buf : ℕ → Char) : ℕ → ℕ → List Char
  | 0, _ => []
  | n + 1, i => if buf i = '\x00' then [] else buf i :: cstring buf n (i + 1)

def Cmd.map {α β : Type} (f : α → β) : Cmd α → Cmd β
  | .exec argv => .exec (argv.map f)
  | .redir cmd file mode fd => .redir (cmd.map f) (f file) mode fd
  | .pipe left right => .pipe (left.map f) (right.map f)
  | .list left right => .list (left.map f) (right.map f)
  | .back cmd => .back (cmd.map f)

/-- parsecmd, and the strings of the command as they stand in the buffer then -/
def parsecmd (line : List Char) : Except Err (Cmd (List Char)) := do
  let (cmd, s) ← parseline (4 * line.length + 6) line
  if skip s = [] then
    let buf := nulterminate line cmd (load line)
    return cmd.map fun w => cstring buf line.length (line.length - w.q.length)
  else .error .syntaxError

/-! ## The grammar -/

/-- a word: neither empty, nor with NUL, whitespace or symbols -/
structure Text where
  text : List Char
  ne : text ≠ []
  plain : ∀ c ∈ text, isPlain c = true ∧ c ≠ '\x00'

inductive RKind where
  | lt
  | gt
  | gtgt

def RKind.sym : RKind → Sym
  | .lt => .lt
  | .gt => .gt
  | .gtgt => .gtgt

/-- how the file is opened: for reading, or for writing, created if it does not exist -/
def RKind.mode : RKind → Word
  | .lt => O_RDONLY
  | .gt | .gtgt => O_WRONLY ||| O_CREATE

/-- the descriptor that is redirected -/
def RKind.fd : RKind → ℕ
  | .lt => 0
  | .gt | .gtgt => 1

structure Redir where
  kind : RKind
  file : Text

/-- the categories of the grammar -/
inductive Cat where
  | line
  | pipe
  | exec

inductive Deriv : Cat → Type where
  /-- pipe {'&'} -/
  | last (p : Deriv .pipe) (amps : ℕ) : Deriv .line
  /-- pipe {'&'} ';' line -/
  | seq (p : Deriv .pipe) (amps : ℕ) (l : Deriv .line) : Deriv .line
  /-- exec -/
  | single (e : Deriv .exec) : Deriv .pipe
  /-- exec '|' pipe -/
  | bar (e : Deriv .exec) (p : Deriv .pipe) : Deriv .pipe
  /-- '(' line ')' redirs -/
  | block (l : Deriv .line) (rs : List Redir) : Deriv .exec
  /-- redirs {word redirs} -/
  | plain (rs : List Redir) (args : List (Text × List Redir)) (hargs : args.length ≤ MAXARGS - 1) : Deriv .exec

abbrev Toks := List (Tok (List Char))

def redirsToks (rs : List Redir) : Toks := rs.flatMap fun r => [.sym r.kind.sym, .word r.file.text]

def argsToks (args : List (Text × List Redir)) : Toks := args.flatMap fun a => .word a.1.text :: redirsToks a.2

/-- the tokens of a derivation -/
def Deriv.toks : {c : Cat} → Deriv c → Toks
  | _, .last p amps => p.toks ++ List.replicate amps (.sym .amp)
  | _, .seq p amps l => p.toks ++ (List.replicate amps (.sym .amp) ++ .sym .semi :: l.toks)
  | _, .single e => e.toks
  | _, .bar e p => e.toks ++ .sym .bar :: p.toks
  | _, .block l rs => .sym .lpar :: (l.toks ++ .sym .rpar :: redirsToks rs)
  | _, .plain rs args _ => redirsToks rs ++ argsToks args

/-- each redirection wraps what came before it -/
def wrap (cmd : Cmd (List Char)) (rs : List Redir) : Cmd (List Char) :=
  rs.foldl (fun cmd r => .redir cmd r.file.text r.kind.mode r.kind.fd) cmd

/-- the command that a derivation denotes -/
def Deriv.tree : {c : Cat} → Deriv c → Cmd (List Char)
  | _, .last p amps => Cmd.back^[amps] p.tree
  | _, .seq p amps l => .list (Cmd.back^[amps] p.tree) l.tree
  | _, .single e => e.tree
  | _, .bar e p => .pipe e.tree p.tree
  | _, .block l rs => wrap l.tree rs
  | _, .plain rs args _ => wrap (.exec (args.map fun a => a.1.text)) (rs ++ args.flatMap fun a => a.2)

/-- how a symbol is written -/
def Sym.text : Sym → List Char
  | .bar => ['|']
  | .lpar => ['(']
  | .rpar => [')']
  | .semi => [';']
  | .amp => ['&']
  | .lt => ['<']
  | .gt => ['>']
  | .gtgt => ['>', '>']

def Tok.text : Tok (List Char) → List Char
  | .sym k => k.text
  | .word w => w

/-- **Printing tokens**: any whitespace before, between and behind them, at least one blank between two words -/
inductive Prints : Toks → List Char → Prop where
  | nil {ws : List Char} (hws : ∀ c ∈ ws, c ∈ whitespace) : Prints [] ws
  | cons {ws s : List Char} {t : Tok (List Char)} {ts : Toks} (hws : ∀ c ∈ ws, c ∈ whitespace) (h : Prints ts s)
      (hsep : ∀ w w' ts', t = .word w → ts = .word w' :: ts' → ∃ c s', s = c :: s' ∧ c ∈ whitespace) :
      Prints (t :: ts) (ws ++ (t.text ++ s))

/-! ## What gettoken sees -/

theorem skip_skip (s : List Char) : skip (skip s) = skip s := by
  unfold skip
  exact dropWhile_idempotent ..

theorem gettoken_skip (s : List Char) : gettoken (skip s) = gettoken s := by
  unfold gettoken
  rw [skip_skip]

theorem skip_suffix (s : List Char) : skip s <:+ s := dropWhile_suffix _

/-- the first character of a symbol -/
def Sym.char : Sym → Char
  | .bar => '|'
  | .lpar => '('
  | .rpar => ')'
  | .semi => ';'
  | .amp => '&'
  | .lt => '<'
  | .gt | .gtgt => '>'

variable {k : Sym} {c : Char} {s r : List Char} {ts : Toks} {w : Span} {cmd : Cmd Span}

theorem Sym.eq_of_char {k' : Sym} (hk : k.char ≠ '>') (h : k'.char = k.char) : k' = k := by
  cases k <;> cases k' <;> first | rfl | exact absurd h (by decide) | exact absurd rfl hk

theorem symbol_some (h : symbol c = some k) : c = k.char ∧ k ≠ .gtgt := by
  unfold symbol at h
  split_ifs at h with h1 h2 h3 h4 h5 h6 h7 <;> cases h <;> exact ⟨by assumption, nofun⟩

/-- a counted string of the line: it ends where whitespace, a symbol or the end of the line follows -/
structure Span.Ok (line : List Char) (w : Span) : Prop where
  suffix : w.q <:+ line
  ne : w.text ≠ []
  plain : ∀ c ∈ w.text, isPlain c = true
  rest : ∃ r, w.q = w.text ++ r ∧ ∀ c r', r = c :: r' → isPlain c = false

/-- **The cases of gettoken**: the end, a symbol, or a word; before and behind it there is whitespace -/
inductive View (s : List Char) : Prop where
  | done (hskip : skip s = []) (hg : gettoken s = (none, []))
  | sym (k : Sym) (r : List Char) (hskip : skip s = k.text ++ r) (hgt : k = .gt → r.head? ≠ some '>')
      (hg : gettoken s = (some (.sym k), skip r))
  | word (w : Span) (r : List Char) (hq : w.q = skip s) (hskip : skip s = w.text ++ r) (hne : w.text ≠ [])
      (hplain : ∀ c ∈ w.text, isPlain c = true) (hrest : ∀ c r', r = c :: r' → isPlain c = false)
      (hg : gettoken s = (some (.word w), skip r))

theorem head_skip {t : List Char} (h : skip s = c :: t) : whitespace.contains c = false := by
  have := head?_dropWhile_not whitespace.contains s
  unfold skip at h
  rw [h] at this
  simpa using this

theorem view (s : List Char) : View s := by
  cases hs : skip s with
  | nil => exact .done hs (by unfold gettoken; rw [hs])
  | cons c t =>
    cases hk : symbol c with
    | none =>
      have hc : isPlain c = true := by
        unfold isPlain
        rw [head_skip hs, hk]
        rfl
      refine .word ⟨c :: t, (c :: t).takeWhile isPlain⟩ ((c :: t).dropWhile isPlain) hs.symm ?_ ?_ ?_ ?_ ?_
      · rw [hs, takeWhile_append_dropWhile]
      · rw [takeWhile_cons_of_pos hc]
        nofun
      · exact fun x hx => mem_takeWhile_imp hx
      · intro x r' hr
        have := head?_dropWhile_not isPlain (c :: t)
        rw [hr] at this
        simpa using this
      · unfold gettoken
        rw [hs]
        dsimp only
        rw [hk]
    | some k =>
      obtain ⟨hck, hne⟩ := symbol_some hk
      by_cases hgt : k = .gt
      · subst hgt
        have hc : c = '>' := hck
        subst hc
        by_cases ht : t.head? = some '>'
        · obtain ⟨u, rfl⟩ : ∃ u, t = '>' :: u := by
            cases t with
            | nil => cases ht
            | cons x u => exact ⟨u, by rw [Option.some.inj ht]⟩
          refine .sym .gtgt u hs nofun ?_
          unfold gettoken
          rw [hs]
          rfl
        · refine .sym .gt t hs (fun _ => ht) ?_
          unfold gettoken
          rw [hs]
          dsimp only
          rw [hk]
          exact if_neg ht
      · refine .sym k t ?_ (fun e => absurd e hgt) ?_
        · rw [hs, hck]
          cases k <;> first | rfl | exact absurd rfl hgt | exact absurd rfl hne
        · unfold gettoken
          rw [hs]
          dsimp only
          rw [hk]
          cases k <;> first | rfl | exact absurd rfl hgt

theorem gettoken_length {t : Tok Span} (h : gettoken s = (some t, r)) : r.length < s.length := by
  have hlen := (skip_suffix s).length_le
  cases view s with
  | done hskip hg =>
    rw [hg] at h
    cases h
  | sym k u hskip hgt hg =>
    rw [hg] at h
    cases h
    have h2 := (skip_suffix u).length_le
    have h3 : 0 < k.text.length := by cases k <;> decide
    rw [hskip, length_append] at hlen
    omega
  | word w u hq hskip hne hplain hrest hg =>
    rw [hg] at h
    cases h
    have h2 := (skip_suffix u).length_le
    have h3 := length_pos_of_ne_nil hne
    rw [hskip, length_append] at hlen
    omega

def Tok.map {α β : Type} (f : α → β) : Tok α → Tok β
  | .sym k => .sym k
  | .word w => .word (f w)

/-- all tokens of a line -/
def lex (s : List Char) : Toks :=
  match _h : gettoken s with
  | (none, _) => []
  | (some t, r) => t.map Span.text :: lex r
termination_by s.length
decreasing_by exact gettoken_length _h

theorem lex_none (h : gettoken s = (none, r)) : lex s = [] := by
  rw [lex]
  split
  · rfl
  · rename_i h'
    rw [h] at h'
    cases h'

theorem lex_some {t : Tok Span} (h : gettoken s = (some t, r)) : lex s = t.map Span.text :: lex r := by
  rw [lex]
  split
  · rename_i h'
    rw [h] at h'
    cases h'
  · rename_i h'
    rw [h] at h'
    cases h'
    rfl

theorem lex_skip (s : List Char) : lex (skip s) = lex s := by
  cases hg : gettoken s with
  | mk t r =>
    have hg' : gettoken (skip s) = (t, r) := by
      rw [gettoken_skip]
      exact hg
    cases t with
    | none => rw [lex_none hg, lex_none hg']
    | some t => rw [lex_some hg, lex_some hg']

/-- characters of `symbols` only -/
abbrev Symbols (toks : List Char) : Prop := ∀ c ∈ toks, (symbol c).isSome = true

theorem symbol_of_plain (h : isPlain c = true) : symbol c = none := by
  unfold isPlain at h
  rw [Bool.and_eq_true] at h
  exact Option.isNone_iff_eq_none.1 h.2

/-- **The cases of a line** as the parser sees them through gettoken and peek -/
inductive Head (s : List Char) : Prop where
  | done (hl : lex s = []) (hg : gettoken s = (none, [])) (hskip : skip s = []) (hp : ∀ toks, peek s toks = false)
  | sym (k : Sym) (r : List Char) (hl : lex s = .sym k :: lex r) (hg : gettoken s = (some (.sym k), r)) (hr : r <:+ s)
      (hp : ∀ toks, peek s toks = toks.contains k.char)
  | word (w : Span) (r : List Char) (hl : lex s = .word w.text :: lex r) (hg : gettoken s = (some (.word w), r))
      (hr : r <:+ s) (hw : w.Ok s) (hp : ∀ toks, Symbols toks → peek s toks = false)

theorem head (s : List Char) : Head s := by
  cases view s with
  | done hskip hg =>
    refine .done (lex_none hg) hg hskip fun toks => ?_
    unfold peek
    rw [hskip]
  | sym k r hskip hgt hg =>
    refine .sym k (skip r) (lex_some hg) hg ?_ fun toks => ?_
    · refine (skip_suffix r).trans (List.IsSuffix.trans ?_ (skip_suffix s))
      rw [hskip]
      exact suffix_append ..
    · unfold peek
      rw [hskip]
      cases k <;> rfl
  | word w r hq hskip hne hplain hrest hg =>
    refine .word w (skip r) (lex_some hg) hg ?_ ⟨hq ▸ skip_suffix s, hne, hplain, r, hq.trans hskip, hrest⟩ fun toks ht => ?_
    · refine (skip_suffix r).trans (List.IsSuffix.trans ?_ (skip_suffix s))
      rw [hskip]
      exact suffix_append ..
    · unfold peek
      rw [hskip]
      obtain ⟨c, t, hct⟩ := exists_cons_of_ne_nil hne
      rw [hct] at hplain ⊢
      have hc := symbol_of_plain (hplain c mem_cons_self)
      show toks.contains c = false
      rw [Bool.eq_false_iff]
      intro hmem
      have := ht c (contains_iff_mem.1 hmem)
      rw [hc] at this
      cases this

theorem head_nil (h : lex s = []) : gettoken s = (none, []) ∧ skip s = [] ∧ ∀ toks, peek s toks = false := by
  cases head s with
  | done hl hg hskip hp => exact ⟨hg, hskip, hp⟩
  | sym k r hl | word w r hl => simp [hl] at h

theorem head_sym (h : lex s = .sym k :: ts) :
    ∃ r, gettoken s = (some (.sym k), r) ∧ lex r = ts ∧ ∀ toks, peek s toks = toks.contains k.char := by
  cases head s with
  | done hl | word w r hl => simp [hl] at h
  | sym k' r hl hg hr hp =>
    rw [hl] at h
    cases h
    exact ⟨r, hg, rfl, hp⟩

theorem head_word {t : List Char} (h : lex s = .word t :: ts) :
    ∃ w r, gettoken s = (some (.word w), r) ∧ w.text = t ∧ lex r = ts ∧ ∀ toks, Symbols toks → peek s toks = false := by
  cases head s with
  | done hl | sym k r hl => simp [hl] at h
  | word w r hl hg hr hw hp =>
    rw [hl] at h
    cases h
    exact ⟨w, r, hg, rfl, rfl, hp⟩

/-- the tokens do not begin with one of these -/
def NotHead (ts : Toks) (toks : List Char) : Prop := ∀ k ts', ts = .sym k :: ts' → k.char ∉ toks

theorem peek_false {toks : List Char} (ht : Symbols toks) (h : NotHead (lex s) toks) : peek s toks = false := by
  cases head s with
  | done hl hg hskip hp => exact hp toks
  | sym k r hl hg hr hp =>
    rw [hp, Bool.eq_false_iff]
    exact fun hmem => h k _ hl (contains_iff_mem.1 hmem)
  | word w r hl hg hr hw hp => exact hp toks ht

/-! ## Trees -/

section

variable {α β : Type}

/-- all strings of a command -/
def Cmd.All (P : α → Prop) : Cmd α → Prop
  | .exec argv => ∀ w ∈ argv, P w
  | .redir cmd file _ _ => cmd.All P ∧ P file
  | .pipe left right => left.All P ∧ right.All P
  | .list left right => left.All P ∧ right.All P
  | .back cmd => cmd.All P

theorem Cmd.All.pushArg {P : α → Prop} {cmd : Cmd α} (h : cmd.All P) {w : α} (hw : P w) : (cmd.pushArg w).All P := by
  induction cmd with
  | exec argv =>
    intro x hx
    rcases mem_append.1 hx with hx | hx
    · exact h x hx
    · rw [mem_singleton.1 hx]
      exact hw
  | redir cmd file mode fd ih => exact ⟨ih h.1, h.2⟩
  | pipe left right | list left right | back cmd => exact h

theorem Cmd.map_pushArg (f : α → β) (cmd : Cmd α) (w : α) : (cmd.pushArg w).map f = (cmd.map f).pushArg (f w) := by
  induction cmd with
  | exec argv =>
    show Cmd.exec ((argv ++ [w]).map f) = Cmd.exec (argv.map f ++ [f w])
    rw [map_append]
    rfl
  | redir cmd file mode fd ih =>
    show Cmd.redir ((cmd.pushArg w).map f) _ _ _ = Cmd.redir ((cmd.map f).pushArg (f w)) _ _ _
    rw [ih]
  | pipe left right | list left right | back cmd => rfl

end

theorem wrap_append (cmd : Cmd (List Char)) (rs rs' : List Redir) : wrap (wrap cmd rs) rs' = wrap cmd (rs ++ rs') :=
  (foldl_append ..).symm

theorem wrap_pushArg (rs : List Redir) : ∀ (cmd : Cmd (List Char)) (w : List Char),
    (wrap cmd rs).pushArg w = wrap (cmd.pushArg w) rs := by
  induction rs with
  | nil => exact fun _ _ => rfl
  | cons r rs ih => exact fun cmd w => ih (.redir cmd r.file.text r.kind.mode r.kind.fd) w

/-- what the loop of parseexec does to the command, argument after argument -/
def applyArgs (cmd : Cmd (List Char)) (args : List (Text × List Redir)) : Cmd (List Char) :=
  args.foldl (fun cmd a => wrap (cmd.pushArg a.1.text) a.2) cmd

theorem applyArgs_wrap (args : List (Text × List Redir)) : ∀ (ws : List (List Char)) (rs : List Redir),
    applyArgs (wrap (.exec ws) rs) args = wrap (.exec (ws ++ args.map fun a => a.1.text)) (rs ++ args.flatMap fun a => a.2) := by
  induction args with
  | nil =>
    intro ws rs
    show wrap (.exec ws) rs = _
    simp
  | cons a args ih =>
    intro ws rs
    show applyArgs (wrap ((wrap (.exec ws) rs).pushArg a.1.text) a.2) args = _
    rw [wrap_pushArg, wrap_append]
    show applyArgs (wrap (.exec (ws ++ [a.1.text])) (rs ++ a.2)) args = _
    rw [ih]
    simp

/-! ## The parser accepts only what the grammar has -/

/-- an error that is a panic -/
def IsPanic (e : Err) : Prop := e ≠ .fuel

theorem Span.Ok.mono {line : List Char} (h : w.Ok s) (hs : s <:+ line) : w.Ok line :=
  ⟨h.suffix.trans hs, h.ne, h.plain, h.rest⟩

/-- a counted string of a line without NUL is a word -/
def Span.Ok.toText {line : List Char} {w : Span} (h : w.Ok line) (hnul : '\x00' ∉ line) : Text where
  text := w.text
  ne := h.ne
  plain c hc := ⟨h.plain c hc, fun e => hnul (by
    obtain ⟨r, hr, -⟩ := h.rest
    exact h.suffix.subset (by rw [hr]; exact mem_append_left _ (e ▸ hc)))⟩

theorem parseredirs_stop {fuel : ℕ} (h : peek s ['<', '>'] = false) : parseredirs (fuel + 1) cmd s = .ok (cmd, skip s) := by
  unfold parseredirs
  rw [h]
  rfl

theorem parseredirs_step {fuel : ℕ} {r' : List Char} {kind : RKind}
    (hp : peek s ['<', '>'] = true) (hg : gettoken s = (some (.sym kind.sym), r)) (hw : gettoken r = (some (.word w), r')) :
    parseredirs (fuel + 1) cmd s = parseredirs fuel (.redir cmd w kind.mode kind.fd) r' := by
  show (if peek s ['<', '>'] = true then _ else _) = _
  rw [if_pos hp, hg]
  dsimp only
  rw [hw]
  cases kind <;> rfl

/-- '<', '>' and '>>' are the symbols that begin with '<' or '>' -/
theorem kind_of_char (h : k.char ∈ ['<', '>']) : ∃ kind : RKind, k = kind.sym := by
  cases k with
  | lt => exact ⟨.lt, rfl⟩
  | gt => exact ⟨.gt, rfl⟩
  | gtgt => exact ⟨.gtgt, rfl⟩
  | _ => exact absurd h (by decide)

theorem kind_char (kind : RKind) : kind.sym.char ∈ ['<', '>'] := by
  cases kind <;> decide

section Sound

variable {line : List Char} (hnul : '\x00' ∉ line)

include hnul

theorem redirs_sound (fuel : ℕ) : ∀ {cmd : Cmd Span} {s : List Char}, s <:+ line → cmd.All (Span.Ok line) →
    (lex s).length + 1 ≤ fuel →
    Ends IsPanic (fun x => ∃ rs, x.1.map Span.text = wrap (cmd.map Span.text) rs ∧ lex s = redirsToks rs ++ lex x.2 ∧
      x.2 <:+ line ∧ x.1.All (Span.Ok line)) (parseredirs fuel cmd s) := by
  induction fuel with
  | zero => exact fun _ _ hf => absurd hf (Nat.not_succ_le_zero _)
  | succ fuel ih =>
    intro cmd s hs hcmd hf
    by_cases hp : peek s ['<', '>'] = true
    · cases head s with
      | done hl hg hskip hp' => simp [hp'] at hp
      | word w r hl hg hr hw hp' =>
        rw [hp' _ (by decide : Symbols ['<', '>'])] at hp
        cases hp
      | sym k r hl hg hr hp' =>
        rw [hp'] at hp
        obtain ⟨kind, rfl⟩ := kind_of_char (contains_iff_mem.1 hp)
        cases head r with
        | word w r' hl' hg' hr' hw hp'' =>
          rw [parseredirs_step ((hp' _).trans hp) hg hg']
          have hrl := hr'.trans (hr.trans hs)
          have hwl := hw.mono (hr.trans hs)
          rw [hl, hl', length_cons, length_cons] at hf
          have hredir : Cmd.All (Span.Ok line) (.redir cmd w kind.mode kind.fd) := ⟨hcmd, hwl⟩
          refine (ih hrl hredir (by omega)).mono ?_
          rintro ⟨cmd', s'⟩ ⟨rs, htree, hlex, hsuf, hall⟩
          refine ⟨⟨kind, hwl.toText hnul⟩ :: rs, htree, ?_, hsuf, hall⟩
          rw [hl, hl', hlex]
          rfl
        | done hl' hg' hskip hp'' | sym k' r' hl' hg' =>
          unfold parseredirs
          rw [(hp' _).trans hp, hg]
          dsimp only
          rw [hg']
          exact nofun
    · rw [parseredirs_stop (Bool.eq_false_iff.2 hp)]
      refine ⟨[], rfl, ?_, (skip_suffix s).trans hs, hcmd⟩
      rw [lex_skip]
      rfl

theorem args_sound (fuel : ℕ) : ∀ {ret : Cmd Span} {argc : ℕ} {s : List Char}, s <:+ line → ret.All (Span.Ok line) →
    argc ≤ MAXARGS - 1 → (lex s).length + 2 ≤ fuel → Ends IsPanic (fun x => ∃ args, argc + args.length ≤ MAXARGS - 1 ∧
      x.1.map Span.text = applyArgs (ret.map Span.text) args ∧ lex s = argsToks args ++ lex x.2 ∧
      x.2 <:+ line ∧ x.1.All (Span.Ok line)) (parseargs fuel ret argc s) := by
  induction fuel with
  | zero => exact fun _ _ _ hf => absurd hf (Nat.not_succ_le_zero _)
  | succ fuel ih =>
    intro ret argc s hs hret hargc hf
    have hstop : ∀ s', lex s' = lex s → s' <:+ line → Ends IsPanic (fun x : Cmd Span × List Char =>
        ∃ args : List (Text × List Redir), argc + args.length ≤ MAXARGS - 1 ∧
        x.1.map Span.text = applyArgs (ret.map Span.text) args ∧ lex s = argsToks args ++ lex x.2 ∧
        x.2 <:+ line ∧ x.1.All (Span.Ok line)) (.ok (ret, s')) := fun s' hl hs' =>
      ⟨[], by simpa using hargc, rfl, by rw [hl]; rfl, hs', hret⟩
    unfold parseargs
    by_cases hp : peek s ['|', ')', '&', ';'] = true
    · rw [if_pos hp]
      exact hstop (skip s) (lex_skip s) ((skip_suffix s).trans hs)
    · rw [if_neg hp]
      cases head s with
      | done hl hg hskip hp' =>
        rw [hg]
        refine hstop [] ?_ (nil_suffix)
        rw [hl, lex_none (s := []) rfl]
      | sym k r hl hg =>
        rw [hg]
        exact nofun
      | word w r hl hg hr hw hp' =>
        rw [hg]
        dsimp only
        split_ifs with hmax
        · exact nofun
        · have hwl := hw.mono hs
          rw [hl, length_cons] at hf
          refine (redirs_sound hnul fuel (hr.trans hs) (hret.pushArg hwl) (by omega)).bind ?_
          rintro ⟨ret', s'⟩ ⟨rs, htree, hlex, hsuf, hall⟩
          dsimp only at htree hlex hsuf hall ⊢
          have hlen := congrArg List.length hlex
          rw [length_append] at hlen
          refine (ih hsuf hall (by omega) (by omega)).mono ?_
          rintro ⟨ret2, s2⟩ ⟨args, hcount, htree2, hlex2, hsuf2, hall2⟩
          refine ⟨(hwl.toText hnul, rs) :: args, by rw [length_cons]; omega, ?_, ?_, hsuf2, hall2⟩
          · rw [htree2, htree, Cmd.map_pushArg]
            rfl
          · rw [hl, hlex, hlex2]
            show _ = (.word w.text :: redirsToks rs ++ argsToks args) ++ _
            rw [cons_append, cons_append, append_assoc]

omit hnul in
theorem amps_sound (fuel : ℕ) : ∀ {cmd : Cmd Span} {s : List Char}, s <:+ line → cmd.All (Span.Ok line) →
    (lex s).length + 1 ≤ fuel → Ends IsPanic (fun x => ∃ n, x.1.map Span.text = Cmd.back^[n] (cmd.map Span.text) ∧
      lex s = List.replicate n (.sym .amp) ++ lex x.2 ∧ x.2 <:+ line ∧ x.1.All (Span.Ok line)) (parseamps fuel cmd s) := by
  induction fuel with
  | zero => exact fun _ _ hf => absurd hf (Nat.not_succ_le_zero _)
  | succ fuel ih =>
    intro cmd s hs hcmd hf
    unfold parseamps
    split_ifs with hp
    · cases head s with
      | done hl hg hskip hp' => simp [hp'] at hp
      | word w r hl hg hr hw hp' =>
        rw [hp' _ (by decide : Symbols ['&'])] at hp
        cases hp
      | sym k r hl hg hr hp' =>
        rw [hp'] at hp
        have hk : k = .amp := Sym.eq_of_char (by decide) (mem_singleton.1 (contains_iff_mem.1 hp))
        subst hk
        rw [hg]
        rw [hl, length_cons] at hf
        have hback : Cmd.All (Span.Ok line) (.back cmd) := hcmd
        refine (ih (hr.trans hs) hback (by omega)).mono ?_
        rintro ⟨cmd', s'⟩ ⟨n, htree, hlex, hsuf, hall⟩
        refine ⟨n + 1, htree, ?_, hsuf, hall⟩
        rw [hl, hlex]
        rfl
    · refine ⟨0, rfl, ?_, (skip_suffix s).trans hs, hcmd⟩
      rw [lex_skip]
      rfl

end Sound

/-- what has been parsed is a derivation, and denotes the command -/
def Parsed (line : List Char) (c : Cat) (s : List Char) (x : Cmd Span × List Char) : Prop :=
  ∃ d : Deriv c, x.1.map Span.text = d.tree ∧ lex s = d.toks ++ lex x.2 ∧ x.2 <:+ line ∧ x.1.All (Span.Ok line)

/-- the four functions with this fuel, from any place of the line that has few enough tokens left -/
structure Sound (line : List Char) (fuel : ℕ) : Prop where
  parseline : ∀ s, s <:+ line → 4 * (lex s).length + 6 ≤ fuel → Ends IsPanic (Parsed line .line s) (parseline fuel s)
  parsepipe : ∀ s, s <:+ line → 4 * (lex s).length + 5 ≤ fuel → Ends IsPanic (Parsed line .pipe s) (parsepipe fuel s)
  parseexec : ∀ s, s <:+ line → 4 * (lex s).length + 4 ≤ fuel → Ends IsPanic (Parsed line .exec s) (parseexec fuel s)
  parseblock : ∀ s, s <:+ line → 4 * (lex s).length + 3 ≤ fuel → Ends IsPanic (Parsed line .exec s) (parseblock fuel s)

theorem after_peek (hk : k.char ≠ '>') (hp : peek s [k.char] = true) :
    lex s = .sym k :: lex (gettoken s).2 ∧ (gettoken s).2 <:+ s := by
  cases head s with
  | done hl hg hskip hp' => simp [hp'] at hp
  | word w r hl hg hr hw hp' =>
    rw [hp' _ fun c hc => by rw [mem_singleton.1 hc]; cases k <;> decide] at hp
    cases hp
  | sym k' r hl hg hr hp' =>
    rw [hp'] at hp
    have hk' := Sym.eq_of_char hk (mem_singleton.1 (contains_iff_mem.1 hp))
    subst hk'
    rw [hg]
    exact ⟨hl, hr⟩

/-- **Soundness.** With enough fuel for the tokens that are left each function panics or returns a derivation. -/
theorem sound {line : List Char} (hnul : '\x00' ∉ line) (fuel : ℕ) : Sound line fuel := by
  induction fuel with
  | zero =>
    exact ⟨fun _ _ hf => absurd hf (Nat.not_succ_le_zero _), fun _ _ hf => absurd hf (Nat.not_succ_le_zero _),
      fun _ _ hf => absurd hf (Nat.not_succ_le_zero _), fun _ _ hf => absurd hf (Nat.not_succ_le_zero _)⟩
  | succ fuel ih =>
    refine ⟨fun s hs hf => ?_, fun s hs hf => ?_, fun s hs hf => ?_, fun s hs hf => ?_⟩
    · rw [Shell.parseline]
      refine (ih.parsepipe s hs (by omega)).bind ?_
      rintro ⟨cmd, s1⟩ ⟨p, htree, hlex, hsuf, hall⟩
      have hlen := congrArg List.length hlex
      rw [length_append] at hlen
      refine (amps_sound fuel hsuf hall (by omega)).bind ?_
      rintro ⟨cmd2, s2⟩ ⟨n, htree2, hlex2, hsuf2, hall2⟩
      have hlen2 := congrArg List.length hlex2
      rw [length_append] at hlen2
      dsimp only at htree hlex htree2 hlex2 hsuf2 hall2 hlen hlen2 ⊢
      split_ifs with hp
      · obtain ⟨hl3, hr3⟩ := after_peek (k := .semi) (by decide) hp
        rw [hl3, length_cons] at hlen2
        refine (ih.parseline _ (hr3.trans hsuf2) (by omega)).bind ?_
        rintro ⟨right, s4⟩ ⟨l, htree4, hlex4, hsuf4, hall4⟩
        refine Ends.pure ⟨.seq p n l, ?_, ?_, hsuf4, hall2, hall4⟩
        · show Cmd.list (cmd2.map Span.text) (right.map Span.text) = _
          rw [htree2, htree, htree4]
          rfl
        · rw [hlex, hlex2, hl3, hlex4]
          show _ = (p.toks ++ (List.replicate n (.sym .amp) ++ .sym .semi :: l.toks)) ++ _
          simp
      · refine Ends.pure ⟨.last p n, ?_, ?_, (skip_suffix s2).trans hsuf2, hall2⟩
        · show cmd2.map Span.text = _
          rw [htree2, htree]
          rfl
        · rw [hlex, hlex2, lex_skip]
          exact (append_assoc ..).symm
    · rw [Shell.parsepipe]
      refine (ih.parseexec s hs (by omega)).bind ?_
      rintro ⟨cmd, s1⟩ ⟨e, htree, hlex, hsuf, hall⟩
      have hlen := congrArg List.length hlex
      rw [length_append] at hlen
      dsimp only at htree hlex hsuf hall hlen ⊢
      split_ifs with hp
      · obtain ⟨hl2, hr2⟩ := after_peek (k := .bar) (by decide) hp
        rw [hl2, length_cons] at hlen
        refine (ih.parsepipe _ (hr2.trans hsuf) (by omega)).bind ?_
        rintro ⟨right, s3⟩ ⟨p, htree3, hlex3, hsuf3, hall3⟩
        refine Ends.pure ⟨.bar e p, ?_, ?_, hsuf3, hall, hall3⟩
        · show Cmd.pipe (cmd.map Span.text) (right.map Span.text) = _
          rw [htree, htree3]
          rfl
        · rw [hlex, hl2, hlex3]
          show _ = (e.toks ++ .sym .bar :: p.toks) ++ _
          simp
      · refine Ends.pure ⟨.single e, htree, ?_, (skip_suffix s1).trans hsuf, hall⟩
        rw [hlex, lex_skip]
        rfl
    · rw [Shell.parseexec]
      split_ifs with hp
      · exact ih.parseblock s hs (by omega)
      · have hempty : Cmd.All (Span.Ok line) (.exec []) := fun _ hw => nomatch hw
        refine (redirs_sound hnul fuel hs hempty (by omega)).bind ?_
        rintro ⟨ret, s1⟩ ⟨rs, htree, hlex, hsuf, hall⟩
        have hlen := congrArg List.length hlex
        rw [length_append] at hlen
        refine (args_sound hnul fuel hsuf hall (Nat.zero_le _) (by omega)).mono ?_
        rintro ⟨ret2, s2⟩ ⟨args, hcount, htree2, hlex2, hsuf2, hall2⟩
        dsimp only at htree hlex htree2 hlex2
        refine ⟨.plain rs args (by omega), ?_, ?_, hsuf2, hall2⟩
        · show ret2.map Span.text = _
          rw [htree2, htree]
          exact applyArgs_wrap args [] rs
        · rw [hlex, hlex2]
          exact (append_assoc ..).symm
    · rw [Shell.parseblock]
      split_ifs with hp
      · obtain ⟨hl1, hr1⟩ := after_peek (k := .lpar) (by decide) hp
        have hlen1 := congrArg List.length hl1
        rw [length_cons] at hlen1
        refine (ih.parseline _ (hr1.trans hs) (by omega)).bind ?_
        rintro ⟨cmd, s2⟩ ⟨l, htree, hlex, hsuf, hall⟩
        have hlen := congrArg List.length hlex
        rw [length_append] at hlen
        dsimp only at htree hlex hsuf hall hlen ⊢
        split_ifs with hp2
        · obtain ⟨hl3, hr3⟩ := after_peek (k := .rpar) (by decide) hp2
          rw [hl3, length_cons] at hlen
          refine (redirs_sound hnul fuel (hr3.trans hsuf) hall (by omega)).mono ?_
          rintro ⟨cmd2, s4⟩ ⟨rs, htree2, hlex2, hsuf2, hall2⟩
          refine ⟨.block l rs, ?_, ?_, hsuf2, hall2⟩
          · rw [htree2, htree]
            rfl
          · rw [hl1, hlex, hl3, hlex2]
            show _ = (.sym .lpar :: (l.toks ++ .sym .rpar :: redirsToks rs)) ++ _
            simp
        · exact nofun
      · exact nofun

/-! ## The parser accepts all that the grammar has -/

/-- the only error is the end of the fuel -/
def OutOfFuel (e : Err) : Prop := e = .fuel

theorem redirs_complete (fuel : ℕ) : ∀ {cmd : Cmd Span} {s : List Char} {rs : List Redir} {ts : Toks},
    lex s = redirsToks rs ++ ts → NotHead ts ['<', '>'] →
    Ends OutOfFuel (fun x => x.1.map Span.text = wrap (cmd.map Span.text) rs ∧ lex x.2 = ts) (parseredirs fuel cmd s) := by
  induction fuel with
  | zero => exact fun _ _ => rfl
  | succ fuel ih =>
    intro cmd s rs ts hl hts
    cases rs with
    | nil =>
      have hl' : lex s = ts := hl
      rw [parseredirs_stop (peek_false (by decide) (by rw [hl']; exact hts))]
      exact ⟨rfl, (lex_skip s).trans hl'⟩
    | cons r rs =>
      have hl' : lex s = .sym r.kind.sym :: .word r.file.text :: (redirsToks rs ++ ts) := hl
      obtain ⟨s1, hg1, hl1, hp1⟩ := head_sym hl'
      obtain ⟨w, s2, hg2, hw, hl2, -⟩ := head_word hl1
      rw [parseredirs_step ((hp1 _).trans (contains_iff_mem.2 (kind_char r.kind))) hg1 hg2]
      refine (ih hl2 hts).mono ?_
      rintro x ⟨htree, hlx⟩
      refine ⟨htree.trans ?_, hlx⟩
      show wrap (.redir (cmd.map Span.text) w.text r.kind.mode r.kind.fd) rs = _
      rw [hw]
      rfl

/-- what may follow an EXEC command -/
def Stop (ts : Toks) : Prop := ts = [] ∨ ∃ k ts', ts = .sym k :: ts' ∧ k.char ∈ ['|', ')', '&', ';']

theorem Stop.notHead (h : Stop ts) (args : List (Text × List Redir)) : NotHead (argsToks args ++ ts) ['<', '>'] := by
  intro k ts' e hk
  cases args with
  | cons a args => cases e
  | nil =>
    rcases h with rfl | ⟨k', ts2, rfl, hk'⟩
    · cases e
    · cases e
      cases k <;> revert hk hk' <;> decide

theorem args_complete (fuel : ℕ) : ∀ {ret : Cmd Span} {argc : ℕ} {s : List Char} {args : List (Text × List Redir)} {ts : Toks},
    argc + args.length ≤ MAXARGS - 1 → lex s = argsToks args ++ ts → Stop ts →
    Ends OutOfFuel (fun x => x.1.map Span.text = applyArgs (ret.map Span.text) args ∧ lex x.2 = ts)
      (parseargs fuel ret argc s) := by
  induction fuel with
  | zero => exact fun _ _ _ => rfl
  | succ fuel ih =>
    intro ret argc s args ts hcount hl hts
    unfold parseargs
    cases args with
    | nil =>
      rcases hts with rfl | ⟨k, ts', rfl, hk⟩
      · obtain ⟨hg, -, hp⟩ := head_nil hl
        rw [hp, hg]
        exact ⟨rfl, lex_none rfl⟩
      · obtain ⟨r, hg, hl1, hp⟩ := head_sym hl
        rw [hp, contains_iff_mem.2 hk]
        exact ⟨rfl, (lex_skip s).trans hl⟩
    | cons a args =>
      have hl' : lex s = .word a.1.text :: (redirsToks a.2 ++ (argsToks args ++ ts)) := by
        rw [hl, ← append_assoc]
        rfl
      obtain ⟨w, r, hg, hw, hl1, hp⟩ := head_word hl'
      rw [length_cons] at hcount
      have hmax : ¬ MAXARGS ≤ argc + 1 := by
        unfold MAXARGS at hcount ⊢
        omega
      rw [hp _ (by decide), hg]
      dsimp only
      rw [if_neg Bool.false_ne_true, if_neg hmax]
      refine (redirs_complete fuel hl1 (hts.notHead args)).bind ?_
      rintro ⟨ret', s'⟩ ⟨htree, hlex⟩
      refine (ih (by omega) hlex hts).mono ?_
      rintro x ⟨htree', hlx⟩
      refine ⟨htree'.trans ?_, hlx⟩
      rw [htree, Cmd.map_pushArg, hw]
      rfl

theorem amps_complete (fuel : ℕ) : ∀ {cmd : Cmd Span} {s : List Char} {n : ℕ} {ts : Toks},
    lex s = List.replicate n (.sym .amp) ++ ts → NotHead ts ['&'] →
    Ends OutOfFuel (fun x => x.1.map Span.text = Cmd.back^[n] (cmd.map Span.text) ∧ lex x.2 = ts) (parseamps fuel cmd s) := by
  induction fuel with
  | zero => exact fun _ _ => rfl
  | succ fuel ih =>
    intro cmd s n ts hl hts
    unfold parseamps
    cases n with
    | zero =>
      have hl' : lex s = ts := hl
      rw [peek_false (by decide) (by rw [hl']; exact hts)]
      exact ⟨rfl, (lex_skip s).trans hl'⟩
    | succ n =>
      have hl' : lex s = .sym .amp :: (List.replicate n (.sym .amp) ++ ts) := hl
      obtain ⟨r, hg, hl1, hp⟩ := head_sym hl'
      rw [hp, hg]
      exact ih hl1 hts

/-- the function of a category -/
def parse : Cat → ℕ → List Char → Except Err (Cmd Span × List Char)
  | .line => parseline
  | .pipe => parsepipe
  | .exec => parseexec

/-- the symbols that may follow -/
def follow : Cat → List Char
  | .line => [')']
  | .pipe => [')', '&', ';']
  | .exec => [')', '&', ';', '|']

def Follow (c : Cat) (ts : Toks) : Prop := ts = [] ∨ ∃ k ts', ts = .sym k :: ts' ∧ k.char ∈ follow c

theorem Follow.notHead {c : Cat} (h : Follow c ts) {toks : List Char} (hd : ∀ x ∈ follow c, x ∉ toks) : NotHead ts toks := by
  rintro k ts' rfl hk
  rcases h with e | ⟨k', ts2, e, hk'⟩
  · cases e
  · cases e
    exact hd _ hk' hk

theorem follow_sym {c : Cat} (k : Sym) (ts : Toks) (hk : k.char ∈ follow c) : Follow c (.sym k :: ts) := .inr ⟨k, ts, rfl, hk⟩

theorem Follow.mono {c c' : Cat} (h : Follow c ts) (hc : ∀ x ∈ follow c, x ∈ follow c') : Follow c' ts := by
  rcases h with rfl | ⟨k, ts', rfl, hk⟩
  · exact .inl rfl
  · exact follow_sym k ts' (hc _ hk)

/-- what may follow a pipe is '&', or what may follow the line -/
theorem follow_amps (h : Follow .pipe ts) (n : ℕ) : Follow .pipe (List.replicate n (.sym .amp) ++ ts) := by
  cases n with
  | zero => exact h
  | succ n => exact follow_sym .amp _ (by decide)

/-- **Completeness.** A derivation, followed by what may follow, is parsed to the command it denotes. -/
theorem complete {c : Cat} (d : Deriv c) : ∀ (fuel : ℕ) (s : List Char) (ts : Toks), lex s = d.toks ++ ts → Follow c ts →
    Ends OutOfFuel (fun x => x.1.map Span.text = d.tree ∧ lex x.2 = ts) (parse c fuel s) := by
  induction d with
  | last p n ih =>
    intro fuel s ts hl hts
    cases fuel with
    | zero => rw [parse, parseline]; rfl
    | succ fuel =>
      rw [parse, parseline]
      have hl' : lex s = p.toks ++ (List.replicate n (.sym .amp) ++ ts) := by
        rw [hl]
        exact append_assoc ..
      refine (ih fuel s _ hl' (follow_amps (hts.mono (by decide)) n)).bind ?_
      rintro ⟨cmd, s1⟩ ⟨htree, hl1⟩
      refine (amps_complete fuel hl1 (hts.notHead (by decide))).bind ?_
      rintro ⟨cmd2, s2⟩ ⟨htree2, hl2⟩
      dsimp only at htree hl1 htree2 hl2 ⊢
      rw [peek_false (by decide) (by rw [hl2]; exact hts.notHead (by decide))]
      exact ⟨by rw [htree2, htree]; rfl, (lex_skip s2).trans hl2⟩
  | seq p n l ihp ihl =>
    intro fuel s ts hl hts
    cases fuel with
    | zero => rw [parse, parseline]; rfl
    | succ fuel =>
      rw [parse, parseline]
      have hl' : lex s = p.toks ++ (List.replicate n (.sym .amp) ++ .sym .semi :: (l.toks ++ ts)) := by
        rw [hl]
        show (p.toks ++ (List.replicate n (.sym .amp) ++ .sym .semi :: l.toks)) ++ ts = _
        simp
      refine (ihp fuel s _ hl' (follow_amps (follow_sym .semi _ (by decide)) n)).bind ?_
      rintro ⟨cmd, s1⟩ ⟨htree, hl1⟩
      have hsemi : NotHead (.sym .semi :: (l.toks ++ ts)) ['&'] := fun k ts' e hk => by
        cases e
        exact absurd hk (by decide)
      refine (amps_complete fuel hl1 hsemi).bind ?_
      rintro ⟨cmd2, s2⟩ ⟨htree2, hl2⟩
      dsimp only at htree hl1 htree2 hl2 ⊢
      obtain ⟨r, hg, hlr, hp⟩ := head_sym hl2
      rw [hp, hg]
      refine (ihl fuel r ts hlr hts).bind ?_
      rintro ⟨right, s3⟩ ⟨htree3, hl3⟩
      refine Ends.pure ⟨?_, hl3⟩
      show Cmd.list (cmd2.map Span.text) (right.map Span.text) = _
      rw [htree2, htree, htree3]
      rfl
  | single e ih =>
    intro fuel s ts hl hts
    cases fuel with
    | zero => rw [parse, parsepipe]; rfl
    | succ fuel =>
      rw [parse, parsepipe]
      refine (ih fuel s ts hl (hts.mono (by decide))).bind ?_
      rintro ⟨cmd, s1⟩ ⟨htree, hl1⟩
      dsimp only at htree hl1 ⊢
      rw [peek_false (by decide) (by rw [hl1]; exact hts.notHead (by decide))]
      exact ⟨htree, (lex_skip s1).trans hl1⟩
  | bar e p ihe ihp =>
    intro fuel s ts hl hts
    cases fuel with
    | zero => rw [parse, parsepipe]; rfl
    | succ fuel =>
      rw [parse, parsepipe]
      have hl' : lex s = e.toks ++ .sym .bar :: (p.toks ++ ts) := by
        rw [hl]
        exact append_assoc ..
      refine (ihe fuel s _ hl' (follow_sym .bar _ (by decide))).bind ?_
      rintro ⟨cmd, s1⟩ ⟨htree, hl1⟩
      dsimp only at htree hl1 ⊢
      obtain ⟨r, hg, hlr, hp⟩ := head_sym hl1
      rw [hp, hg]
      refine (ihp fuel r ts hlr hts).bind ?_
      rintro ⟨right, s2⟩ ⟨htree2, hl2⟩
      refine Ends.pure ⟨?_, hl2⟩
      show Cmd.pipe (cmd.map Span.text) (right.map Span.text) = _
      rw [htree, htree2]
      rfl
  | block l rs ih =>
    intro fuel s ts hl hts
    have hl' : lex s = .sym .lpar :: (l.toks ++ .sym .rpar :: (redirsToks rs ++ ts)) := by
      rw [hl]
      show (.sym .lpar :: (l.toks ++ .sym .rpar :: redirsToks rs)) ++ ts = _
      simp
    obtain ⟨r, hg, hlr, hp⟩ := head_sym hl'
    cases fuel with
    | zero => rw [parse, parseexec]; rfl
    | succ fuel =>
      rw [parse, parseexec, hp]
      cases fuel with
      | zero => rw [parseblock]; rfl
      | succ fuel =>
        rw [parseblock, hp, hg]
        refine (ih fuel r _ hlr (follow_sym .rpar _ (by decide))).bind ?_
        rintro ⟨cmd, s1⟩ ⟨htree, hl1⟩
        dsimp only at htree hl1 ⊢
        obtain ⟨r2, hg2, hlr2, hp2⟩ := head_sym hl1
        rw [hp2, hg2]
        refine (redirs_complete fuel hlr2 (hts.notHead (by decide))).mono ?_
        rintro x ⟨htree2, hlx⟩
        exact ⟨by rw [htree2, htree]; rfl, hlx⟩
  | plain rs args hargs =>
    intro fuel s ts hl hts
    have hl' : lex s = redirsToks rs ++ (argsToks args ++ ts) := by
      rw [hl]
      exact append_assoc ..
    have hstop : Stop ts := by
      rcases hts with h | ⟨k, ts', h, hk⟩
      · exact .inl h
      · exact .inr ⟨k, ts', h, by cases k <;> revert hk <;> decide⟩
    cases fuel with
    | zero => rw [parse, parseexec]; rfl
    | succ fuel =>
      have hpar : NotHead (lex s) ['('] := by
        rw [hl']
        intro k ts' e hk
        cases rs with
        | cons r rs =>
          cases e
          have := kind_char r.kind
          revert hk this
          cases r.kind <;> decide
        | nil =>
          cases args with
          | cons a args => cases e
          | nil => exact hts.notHead (by decide) k ts' e hk
      rw [parse, parseexec, peek_false (by decide) hpar]
      refine (redirs_complete fuel hl' (hstop.notHead args)).bind ?_
      rintro ⟨ret, s1⟩ ⟨htree, hl1⟩
      refine (args_complete fuel (by omega) hl1 hstop).mono ?_
      rintro x ⟨htree2, hlx⟩
      refine ⟨?_, hlx⟩
      rw [htree2, htree]
      exact applyArgs_wrap args [] rs

/-! ## Printing and reading tokens -/

/-- the words are words, and '>' stands before a word -/
def Proper : Toks → Prop
  | [] => True
  | .sym k :: ts => (k = .gt → ∃ w ts', ts = .word w :: ts') ∧ Proper ts
  | .word w :: ts => (w ≠ [] ∧ ∀ c ∈ w, isPlain c = true) ∧ Proper ts

theorem Proper.append {ts' : Toks} (h : Proper ts) (h' : Proper ts') : Proper (ts ++ ts') := by
  induction ts with
  | nil => exact h'
  | cons t ts ih =>
    cases t with
    | sym k =>
      refine ⟨fun e => ?_, ih h.2⟩
      obtain ⟨w, ts2, rfl⟩ := h.1 e
      exact ⟨w, _, rfl⟩
    | word w => exact ⟨h.1, ih h.2⟩

theorem proper_redirs (rs : List Redir) : Proper (redirsToks rs) := by
  induction rs with
  | nil => trivial
  | cons r rs ih => exact ⟨fun _ => ⟨_, _, rfl⟩, ⟨r.file.ne, fun c hc => (r.file.plain c hc).1⟩, ih⟩

theorem proper_args (args : List (Text × List Redir)) : Proper (argsToks args) := by
  induction args with
  | nil => trivial
  | cons a args ih =>
    have hword : Proper (.word a.1.text :: redirsToks a.2) :=
      ⟨⟨a.1.ne, fun c hc => (a.1.plain c hc).1⟩, proper_redirs a.2⟩
    exact hword.append ih

theorem proper_amps (n : ℕ) : Proper (List.replicate n (.sym .amp)) := by
  induction n with
  | zero => trivial
  | succ n ih => exact ⟨nofun, ih⟩

theorem Deriv.proper {c : Cat} (d : Deriv c) : Proper d.toks := by
  induction d with
  | last p n ih => exact ih.append (proper_amps n)
  | seq p n l ihp ihl => exact ihp.append ((proper_amps n).append ⟨nofun, ihl⟩)
  | single e ih => exact ih
  | bar e p ihe ihp => exact ihe.append ⟨nofun, ihp⟩
  | block l rs ih => exact ⟨nofun, ih.append ⟨nofun, proper_redirs rs⟩⟩
  | plain rs args _ => exact (proper_redirs rs).append (proper_args args)

theorem not_plain_of_whitespace (h : c ∈ whitespace) : isPlain c = false := by
  unfold isPlain
  rw [contains_iff_mem.2 h]
  rfl

theorem not_plain_char (k : Sym) : isPlain k.char = false := by
  cases k <;> decide

theorem whitespace_char (k : Sym) : whitespace.contains k.char = false := by
  cases k <;> decide

theorem text_eq_cons (k : Sym) : ∃ t, k.text = k.char :: t := by
  cases k <;> exact ⟨_, rfl⟩

theorem lex_symbol (hc : isPlain c = false) (hws : c ∉ whitespace) : ∃ k ts, lex (c :: s) = .sym k :: ts := by
  have hskip : skip (c :: s) = c :: s := by
    refine dropWhile_cons_of_neg fun h => hws (contains_iff_mem.1 h)
  cases view (c :: s) with
  | done h =>
    rw [hskip] at h
    cases h
  | sym k r h hgt hg => exact ⟨k, _, lex_some hg⟩
  | word w r hq h hne hplain hrest hg =>
    obtain ⟨x, t, hxt⟩ := exists_cons_of_ne_nil hne
    rw [hskip, hxt, cons_append] at h
    have hx : c = x := (List.cons.inj h).1
    rw [hxt] at hplain
    have := hplain x mem_cons_self
    rw [← hx, hc] at this
    cases this

/-- **Every line is a printout of its tokens.** -/
theorem prints_lex (n : ℕ) : ∀ s : List Char, s.length ≤ n → Prints (lex s) s := by
  induction n with
  | zero =>
    intro s hs
    rw [eq_nil_of_length_eq_zero (Nat.le_zero.1 hs), lex_none (s := []) rfl]
    exact .nil fun _ hc => nomatch hc
  | succ n ih =>
    intro s hs
    have hsplit : s.takeWhile whitespace.contains ++ skip s = s := takeWhile_append_dropWhile
    have hws : ∀ c ∈ s.takeWhile whitespace.contains, c ∈ whitespace := fun c hc =>
      contains_iff_mem.1 (mem_takeWhile_imp hc)
    have hlen := congrArg List.length hsplit
    rw [length_append] at hlen
    cases view s with
    | done hskip hg =>
      rw [hskip, append_nil] at hsplit
      rw [lex_none hg]
      rw [hsplit] at hws
      exact .nil hws
    | sym k r hskip hgt hg =>
      obtain ⟨t, ht⟩ := text_eq_cons k
      rw [hskip, length_append, ht, length_cons] at hlen
      have hr := ih r (by omega)
      rw [lex_some hg, lex_skip]
      have := Prints.cons (t := .sym k) hws hr nofun
      rw [← hsplit, hskip]
      exact this
    | word w r hq hskip hne hplain hrest hg =>
      have hpos := length_pos_of_ne_nil hne
      rw [hskip, length_append] at hlen
      have hr := ih r (by omega)
      rw [lex_some hg, lex_skip]
      have := Prints.cons (t := .word w.text) hws hr fun w1 w2 ts' _ hts => by
        cases r with
        | nil =>
          rw [lex_none (s := []) rfl] at hts
          cases hts
        | cons c r' =>
          refine ⟨c, r', rfl, ?_⟩
          by_contra hcw
          obtain ⟨k, ts2, hk⟩ := lex_symbol (s := r') (hrest c r' rfl) hcw
          rw [hk] at hts
          cases hts
      rw [← hsplit, hskip]
      exact this

theorem Prints.first {t : Tok (List Char)} (h : Prints (t :: ts) s) :
    (∃ c s', s = c :: s' ∧ c ∈ whitespace) ∨ ∃ s', s = t.text ++ s' := by
  cases h with
  | @cons ws s' _ _ hws h hsep =>
    cases ws with
    | nil => exact .inr ⟨s', rfl⟩
    | cons c ws => exact .inl ⟨c, _, rfl, hws c mem_cons_self⟩

theorem Prints.behind_word (h : Prints ts s) (hsep : ∀ w' ts', ts = .word w' :: ts' → ∃ c s', s = c :: s' ∧ c ∈ whitespace) :
    ∀ c s', s = c :: s' → isPlain c = false := by
  rintro c s' rfl
  cases ts with
  | nil =>
    cases h with
    | nil hws => exact not_plain_of_whitespace (hws c mem_cons_self)
  | cons t ts =>
    cases t with
    | word w =>
      obtain ⟨c', s2, e, hc⟩ := hsep w ts rfl
      cases e
      exact not_plain_of_whitespace hc
    | sym k =>
      rcases h.first with ⟨c', s2, e, hc⟩ | ⟨s2, e⟩
      · cases e
        exact not_plain_of_whitespace hc
      · obtain ⟨t, ht⟩ := text_eq_cons k
        have e' : c :: s' = k.text ++ s2 := e
        rw [ht, cons_append] at e'
        rw [(List.cons.inj e').1]
        exact not_plain_char k

theorem takeWhile_word {w : List Char} (hw : ∀ c ∈ w, isPlain c = true) (hr : ∀ c r', r = c :: r' → isPlain c = false) :
    (w ++ r).takeWhile isPlain = w := by
  rw [takeWhile_append_of_pos hw]
  cases r with
  | nil => simp
  | cons c r' => rw [takeWhile_cons_of_neg (by rw [hr c r' rfl]; exact Bool.false_ne_true), append_nil]

theorem skip_append {ws : List Char} (hws : ∀ c ∈ ws, c ∈ whitespace) : skip (ws ++ s) = skip s :=
  dropWhile_append_of_pos fun c hc => contains_iff_mem.2 (hws c hc)

/-- **Reading a printout** gives its tokens back. -/
theorem lex_prints (h : Prints ts s) (hok : Proper ts) : lex s = ts := by
  induction h with
  | @nil ws hws =>
    have hskip : skip ws = [] := by
      have := skip_append (s := []) hws
      rw [append_nil] at this
      exact this
    refine lex_none (r := []) ?_
    unfold gettoken
    rw [hskip]
  | @cons ws s t ts hws h hsep ih =>
    cases t with
    | sym k =>
      have hrest := ih hok.2
      obtain ⟨u, hu⟩ := text_eq_cons k
      have hskip : skip (ws ++ (k.text ++ s)) = k.text ++ s := by
        rw [skip_append hws, hu, cons_append]
        exact dropWhile_cons_of_neg (by rw [whitespace_char]; exact Bool.false_ne_true)
      show lex (ws ++ (k.text ++ s)) = _
      cases view (ws ++ (k.text ++ s)) with
      | done h0 =>
        rw [hskip, hu] at h0
        cases h0
      | word w r hq h0 hne hplain hr hg =>
        obtain ⟨x, t, hxt⟩ := exists_cons_of_ne_nil hne
        rw [hskip, hu, hxt, cons_append, cons_append] at h0
        rw [hxt, ← (List.cons.inj h0).1] at hplain
        have := hplain _ mem_cons_self
        rw [not_plain_char] at this
        cases this
      | sym k' r h0 hgt hg =>
        rw [hskip] at h0
        -- '>' is not followed by another one, since a word comes next
        have hfirst : k = .gt → s.head? ≠ some '>' := by
          intro e hhead
          obtain ⟨w, ts', rfl⟩ := hok.1 e
          have hw := hok.2.1
          rcases h.first with ⟨c, s', e', hc⟩ | ⟨s', e'⟩
          · rw [e'] at hhead
            cases hhead
            exact absurd hc (by decide)
          · obtain ⟨x, t, hxt⟩ := exists_cons_of_ne_nil hw.1
            have e2 : s = w ++ s' := e'
            rw [e2, hxt] at hhead
            cases hhead
            have := hw.2 '>' (by rw [hxt]; exact mem_cons_self)
            exact absurd this (by decide)
        have hkr : k' = k ∧ r = s := by
          cases k <;> cases k' <;> simp [Sym.text] at h0 <;> first
            | exact ⟨rfl, h0.symm⟩
            | (rw [h0] at hfirst; exact absurd rfl (hfirst rfl))
            | (rw [← h0] at hgt; exact absurd rfl (hgt rfl))
        obtain ⟨rfl, rfl⟩ := hkr
        rw [lex_some hg, lex_skip, hrest]
        rfl
    | word w =>
      have hrest := ih hok.2
      obtain ⟨hne, hplain⟩ := hok.1
      have hr := h.behind_word fun w' ts' e => hsep w w' ts' rfl e
      obtain ⟨x, t, hxt⟩ := exists_cons_of_ne_nil hne
      have hx : isPlain x = true := hplain x (by rw [hxt]; exact mem_cons_self)
      have hskip : skip (ws ++ (w ++ s)) = w ++ s := by
        rw [skip_append hws, hxt, cons_append]
        refine dropWhile_cons_of_neg fun hc => ?_
        rw [not_plain_of_whitespace (contains_iff_mem.1 hc)] at hx
        cases hx
      show lex (ws ++ (w ++ s)) = _
      cases view (ws ++ (w ++ s)) with
      | done h0 =>
        rw [hskip, hxt] at h0
        cases h0
      | sym k r h0 hgt hg =>
        obtain ⟨u, hu⟩ := text_eq_cons k
        rw [hskip, hu, hxt, cons_append, cons_append] at h0
        rw [(List.cons.inj h0).1, not_plain_char] at hx
        cases hx
      | word w' r hq h0 hne' hplain' hr' hg =>
        rw [hskip] at h0
        have hww : w = w'.text := by
          rw [← takeWhile_word hplain hr, h0, takeWhile_word hplain' hr']
        have hrs : s = r := by
          rw [hww] at h0
          exact append_cancel_left h0
        rw [lex_some hg, lex_skip, ← hrs, hrest, hww]
        rfl

theorem length_lex_le (n : ℕ) : ∀ s : List Char, s.length ≤ n → (lex s).length ≤ s.length := by
  induction n with
  | zero =>
    intro s hs
    rw [eq_nil_of_length_eq_zero (Nat.le_zero.1 hs), lex_none (s := []) rfl]
    exact le_rfl
  | succ n ih =>
    intro s hs
    cases hg : gettoken s with
    | mk t r =>
      cases t with
      | none =>
        rw [lex_none hg]
        exact Nat.zero_le _
      | some t =>
        have hlt := gettoken_length hg
        have := ih r (by omega)
        rw [lex_some hg, length_cons]
        omega

/-! ## The strings after nulterminate -/

section Strings

variable {α β : Type}

/-- the strings of a command, in the order in which nulterminate visits them -/
def Cmd.strings : Cmd α → List α
  | .exec argv => argv
  | .redir cmd file _ _ => cmd.strings ++ [file]
  | .pipe left right => left.strings ++ right.strings
  | .list left right => left.strings ++ right.strings
  | .back cmd => cmd.strings

theorem Cmd.All.strings {P : α → Prop} {cmd : Cmd α} (h : cmd.All P) : ∀ w ∈ cmd.strings, P w := by
  induction cmd with
  | exec argv => exact h
  | redir cmd file mode fd ih =>
    intro w hw
    rcases mem_append.1 hw with hw | hw
    · exact ih h.1 w hw
    · rw [mem_singleton.1 hw]
      exact h.2
  | pipe left right ihl ihr | list left right ihl ihr =>
    intro w hw
    rcases mem_append.1 hw with hw | hw
    · exact ihl h.1 w hw
    · exact ihr h.2 w hw
  | back cmd ih => exact ih h

theorem Cmd.map_congr {f g : α → β} {cmd : Cmd α} (h : ∀ w ∈ cmd.strings, f w = g w) : cmd.map f = cmd.map g := by
  induction cmd with
  | exec argv => exact congrArg Cmd.exec (map_congr_left h)
  | redir cmd file mode fd ih =>
    unfold Cmd.map
    rw [ih fun w hw => h w (mem_append_left _ hw), h file (mem_append_right _ mem_cons_self)]
  | pipe left right ihl ihr | list left right ihl ihr =>
    unfold Cmd.map
    rw [ihl fun w hw => h w (mem_append_left _ hw), ihr fun w hw => h w (mem_append_right _ hw)]
  | back cmd ih =>
    unfold Cmd.map
    rw [ih h]

end Strings

/-- NULs at the ends of the strings ws -/
def terminate (line : List Char) (ws : List Span) (buf : ℕ → Char) : ℕ → Char :=
  ws.foldl (fun buf w => update buf (w.stop line) '\x00') buf

theorem nulterminate_eq (line : List Char) (cmd : Cmd Span) :
    ∀ buf, nulterminate line cmd buf = terminate line cmd.strings buf := by
  induction cmd with
  | exec argv => exact fun _ => rfl
  | redir cmd file mode fd ih =>
    intro buf
    unfold nulterminate
    rw [ih buf]
    show _ = terminate line (cmd.strings ++ [file]) buf
    unfold terminate
    rw [foldl_append]
    rfl
  | pipe left right ihl ihr | list left right ihl ihr =>
    intro buf
    unfold nulterminate
    rw [ihl, ihr]
    exact (foldl_append ..).symm
  | back cmd ih => exact ih

theorem terminate_of_ne {line : List Char} (ws : List Span) : ∀ {buf : ℕ → Char} {i : ℕ}, (∀ w ∈ ws, w.stop line ≠ i) →
    terminate line ws buf i = buf i := by
  induction ws with
  | nil => exact fun _ => rfl
  | cons w ws ih =>
    intro buf i h
    refine (ih fun x hx => h x (mem_cons_of_mem w hx)).trans ?_
    exact update_of_ne (Ne.symm (h w mem_cons_self)) ..

theorem terminate_stop {line : List Char} (ws : List Span) : ∀ {buf : ℕ → Char} {i : ℕ},
    (buf i = '\x00' ∨ ∃ w ∈ ws, w.stop line = i) → terminate line ws buf i = '\x00' := by
  induction ws with
  | nil =>
    rintro buf i (h | ⟨w, hw, -⟩)
    · exact h
    · cases hw
  | cons w ws ih =>
    intro buf i h
    refine ih ?_
    show update buf (w.stop line) '\x00' i = '\x00' ∨ _
    by_cases hi : i = w.stop line
    · exact .inl (by rw [hi, update_self])
    · rw [update_of_ne hi]
      rcases h with h | ⟨x, hx, hxi⟩
      · exact .inl h
      · rcases mem_cons.1 hx with rfl | hx
        · exact absurd hxi.symm hi
        · exact .inr ⟨x, hx, hxi⟩

theorem cstring_eq {buf : ℕ → Char} (t : List Char) : ∀ {n i : ℕ}, t.length ≤ n → '\x00' ∉ t →
    (∀ j < t.length, buf (i + j) = t.getD j '\x00') → buf (i + t.length) = '\x00' → cstring buf n i = t := by
  induction t with
  | nil =>
    intro n i _ _ _ hend
    cases n with
    | zero => rfl
    | succ n => exact if_pos hend
  | cons c t ih =>
    intro n i hn hnul hchars hend
    cases n with
    | zero => exact absurd hn (Nat.not_succ_le_zero _)
    | succ n =>
      have hc : buf i = c := hchars 0 (Nat.succ_pos _)
      have hne : buf i ≠ '\x00' := fun e => hnul (by rw [← e, hc]; exact mem_cons_self)
      have hrest : cstring buf n (i + 1) = t := by
        refine ih (Nat.le_of_succ_le_succ hn) (fun h => hnul (mem_cons_of_mem c h)) (fun j hj => ?_) ?_
        · rw [Nat.add_right_comm]
          exact hchars (j + 1) (Nat.succ_lt_succ hj)
        · rw [Nat.add_right_comm]
          exact hend
      show (if buf i = '\x00' then [] else buf i :: cstring buf n (i + 1)) = _
      rw [if_neg hne, hc, hrest]

/-- the characters of a counted string in the buffer of its line -/
theorem Span.Ok.load_text {line : List Char} (h : w.Ok line) {j : ℕ} (hj : j < w.text.length) :
    load line (line.length - w.q.length + j) = w.text.getD j '\x00' := by
  obtain ⟨pre, hpre⟩ := h.suffix
  obtain ⟨r, hr, -⟩ := h.rest
  have hpos : line.length - w.q.length = pre.length := by
    rw [← hpre, length_append]
    omega
  unfold load
  rw [hpos, ← hpre, getD_append_right _ _ _ _ (Nat.le_add_right ..), Nat.add_sub_cancel_left, hr,
    getD_append _ _ _ _ hj]

theorem Span.Ok.load_stop {line : List Char} (h : w.Ok line) :
    load line (w.stop line) = '\x00' ∨ isPlain (load line (w.stop line)) = false := by
  obtain ⟨pre, hpre⟩ := h.suffix
  obtain ⟨r, hr, hrest⟩ := h.rest
  have hstop : w.stop line = (pre ++ w.text).length := by
    unfold Span.stop
    rw [← hpre, length_append, length_append]
    omega
  have hline : line = (pre ++ w.text) ++ r := by rw [append_assoc, ← hr, hpre]
  have hload : load line (w.stop line) = r.getD 0 '\x00' := by
    unfold load
    rw [hstop, hline, getD_append_right _ _ _ _ le_rfl, Nat.sub_self]
  rw [hload]
  cases r with
  | nil => exact .inl rfl
  | cons c r' => exact .inr (hrest c r' rfl)

/-- **nulterminate.** It cuts every string of the command at its end and leaves the others alone. -/
theorem cstring_span {line : List Char} (hnul : '\x00' ∉ line) (h : cmd.All (Span.Ok line)) :
    ∀ w ∈ cmd.strings, cstring (nulterminate line cmd (load line)) line.length (line.length - w.q.length) = w.text := by
  intro w hw
  have hok := h.strings w hw
  have hmem : ∀ c ∈ w.text, c ∈ line := fun c hc => by
    obtain ⟨r, hr, -⟩ := hok.rest
    exact hok.suffix.subset (by rw [hr]; exact mem_append_left _ hc)
  rw [nulterminate_eq]
  refine cstring_eq w.text ?_ (fun hc => hnul (hmem _ hc)) (fun j hj => ?_) (terminate_stop _ (.inr ⟨w, hw, rfl⟩))
  · obtain ⟨r, hr, -⟩ := hok.rest
    have := hok.suffix.length_le
    rw [hr, length_append] at this
    omega
  · rw [terminate_of_ne, hok.load_text hj]
    intro w' hw' e
    have hc : w.text.getD j '\x00' ∈ w.text := by
      rw [getD_eq_getElem _ _ hj]
      exact getElem_mem hj
    have hstop := (h.strings w' hw').load_stop
    rw [e, hok.load_text hj] at hstop
    rcases hstop with h0 | h0
    · rw [h0] at hc
      exact hnul (hmem _ hc)
    · rw [hok.plain _ hc] at h0
      cases h0

/-! ## parsecmd -/

/-- **The parser accepts exactly its grammar.** On every line without NUL: if it is a printout of the tokens of a derivation,
parsecmd returns the command that the derivation denotes; if it is a printout of none, parsecmd panics. In particular the
recursion ends on every line. -/
theorem parsecmd_grammar (line : List Char) (hnul : '\x00' ∉ line) :
    (∀ d : Deriv .line, Prints d.toks line → parsecmd line = .ok d.tree) ∧
    ((¬ ∃ d : Deriv .line, Prints d.toks line) → ∃ e, e ≠ .fuel ∧ parsecmd line = .error e) := by
  have hlen := length_lex_le line.length line le_rfl
  have hsound := (sound hnul (4 * line.length + 6)).parseline line (suffix_refl line) (by omega)
  refine ⟨fun d hd => ?_, fun hno => ?_⟩
  · have hlex := lex_prints hd d.proper
    have hcomp := complete d (4 * line.length + 6) line [] (by rw [hlex, append_nil]) (.inl rfl)
    have hcomp : Ends OutOfFuel _ (parseline (4 * line.length + 6) line) := hcomp
    unfold parsecmd
    cases hp : parseline (4 * line.length + 6) line with
    | error e =>
      rw [hp] at hsound hcomp
      exact absurd hcomp hsound
    | ok x =>
      rw [hp] at hsound hcomp
      obtain ⟨cmd, s⟩ := x
      obtain ⟨-, -, -, -, hall⟩ := hsound
      obtain ⟨htree, hs⟩ := hcomp
      show (if skip s = [] then _ else _) = _
      rw [if_pos (head_nil hs).2.1]
      exact congrArg Except.ok ((Cmd.map_congr (cstring_span hnul hall)).trans htree)
  · unfold parsecmd
    cases hp : parseline (4 * line.length + 6) line with
    | error e =>
      rw [hp] at hsound
      exact ⟨e, hsound, rfl⟩
    | ok x =>
      rw [hp] at hsound
      obtain ⟨cmd, s⟩ := x
      obtain ⟨d, -, hlex, -, -⟩ := hsound
      refine ⟨.syntaxError, nofun, ?_⟩
      show (if skip s = [] then _ else _) = _
      refine if_neg fun hs => hno ⟨d, ?_⟩
      have hs' : lex s = [] := by
        rw [← lex_skip, hs]
        exact lex_none rfl
      dsimp only at hlex
      rw [hs', append_nil] at hlex
      rw [← hlex]
      exact prints_lex _ line le_rfl

/-- the words and the derivation of "ls >x" -/
def ls : Text := ⟨['l', 's'], by decide, by decide⟩
def out : Text := ⟨['x'], by decide, by decide⟩
def lsOut : Deriv .line := .last (.single (.plain [] [(ls, [⟨.gt, out⟩])] (by decide))) 0

/-- "ls >x" is EXEC ls with its output redirected -/
theorem parsecmd_grammar_example : parsecmd ['l', 's', ' ', '>', 'x'] =
    .ok (.redir (.exec [['l', 's']]) ['x'] (O_WRONLY ||| O_CREATE) 1) := by
  have hx : Prints [.word out.text] ([] ++ (['x'] ++ [])) := .cons nofun (.nil nofun) nofun
  have hgt : Prints [.sym .gt, .word out.text] ([' '] ++ (['>'] ++ ['x'])) := .cons (by decide) hx nofun
  have hls : Prints lsOut.toks ([] ++ (['l', 's'] ++ [' ', '>', 'x'])) := .cons nofun hgt nofun
  exact (parsecmd_grammar ['l', 's', ' ', '>', 'x'] (by decide)).1 lsOut hls

end Xv6.Shell
