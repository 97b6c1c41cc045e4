import PipRiot.Lib.Bytes

/-!
# Splitting a shell line

`handle_input_line` of `shell.c` removes blanks, quotes and escapes from a line
in place and ends each word with a NUL byte. Its write position never passes its
read position, so it always reads characters of the line as it was; the bytes it
has written are kept apart in `out`.
-/

namespace PipRiot.Shell

open List

def SQUOTE : Byte := 0x27
def DQUOTE : Byte := 0x22
def ESCAPECHAR : Byte := 0x5c
def SPACE : Byte := 0x20
def TAB : Byte := 0x09

inductive ParseState where
  | blank
  | unquoted | singlequote | doublequote
  | unquotedEsc | singlequoteEsc | doublequoteEsc
  deriving DecidableEq

def escapeToggle : ParseState → ParseState
  -- never toggled: an escape in a blank starts an unquoted word
  | .blank => .blank
  | .unquoted => .unquotedEsc
  | .singlequote => .singlequoteEsc
  | .doublequote => .doublequoteEsc
  | .unquotedEsc => .unquoted
  | .singlequoteEsc => .singlequote
  | .doublequoteEsc => .doublequote

structure Parser where
  pstate : ParseState
  argc : Nat
  out : List Byte

def Parser.put (p : Parser) (c : Byte) : Parser := { p with out := p.out ++ [c] }

def Parser.goto (p : Parser) (s : ParseState) : Parser := { p with pstate := s }

def Parser.quoted (p : Parser) (wordbreak c : Byte) : Parser :=
  if c = wordbreak then p.goto .unquoted
  else if c = ESCAPECHAR then p.goto (escapeToggle p.pstate)
  else p.put c

def Parser.next (p : Parser) (c : Byte) : Parser :=
  match p.pstate with
  | .blank =>
    if c = SPACE ∨ c = TAB then p
    else
      let p := { p with argc := p.argc + 1 }
      if c = SQUOTE then p.goto .singlequote
      else if c = DQUOTE then p.goto .doublequote
      else if c = ESCAPECHAR then p.goto .unquotedEsc
      else (p.goto .unquoted).put c
  | .unquoted =>
    if c = SQUOTE then p.goto .singlequote
    else if c = DQUOTE then p.goto .doublequote
    else if c = ESCAPECHAR then p.goto (escapeToggle p.pstate)
    else if c = SPACE ∨ c = TAB then (p.goto .blank).put 0
    else p.put c
  | .singlequote => p.quoted SQUOTE c
  | .doublequote => p.quoted DQUOTE c
  | .unquotedEsc | .singlequoteEsc | .doublequoteEsc => (p.goto (escapeToggle p.pstate)).put c

variable (line : List Byte)

def parse : Parser := line.foldl Parser.next ⟨.blank, 0, []⟩

/-- The line buffer once the line is parsed: what was written, the NUL, and what is left
of the line. -/
def buffer : List Byte :=
  (parse line).out ++ 0 :: (line ++ [0]).drop ((parse line).out.length + 1)

def cstr (buf : List Byte) : List Byte := buf.takeWhile (· != 0)

def collect : Nat → List Byte → List (List Byte)
  | 0, _ => []
  | n + 1, buf => cstr buf :: collect n (buf.drop ((cstr buf).length + 1))

inductive Parsed where
  | incorrectQuoting
  | nothing
  | command (argv : List (List Byte))
  deriving DecidableEq

def handleInputLine : Parsed :=
  if (parse line).pstate ≠ .blank ∧ (parse line).pstate ≠ .unquoted then .incorrectQuoting
  else if (parse line).argc = 0 then .nothing
  else .command (collect (parse line).argc (buffer line))

/-! ## The words of a line -/

structure Parser.Counts (p : Parser) (n : Nat) : Prop where
  words : p.argc = p.out.count 0 + if p.pstate = .blank then 0 else 1
  length : p.out.length ≤ n

theorem Parser.Counts.put_char {p : Parser} {n : Nat} {c : Byte} (hc : c ≠ 0) (h : p.Counts n) :
    (p.put c).Counts (n + 1) := by
  refine ⟨?_, by simpa [Parser.put] using h.length⟩
  have hcount : (p.out ++ [c]).count 0 = p.out.count 0 := by
    rw [count_append, count_eq_zero_of_not_mem (l := [c]) (by simpa using Ne.symm hc), add_zero]
  simp only [Parser.put, hcount]
  exact h.words

theorem Parser.Counts.goto_word {p : Parser} {n : Nat} {s : ParseState} (h : p.Counts n) (hp : p.pstate ≠ .blank)
    (hs : s ≠ .blank) : (p.goto s).Counts n := by
  refine ⟨?_, h.length⟩
  have hw := h.words
  simp only [Parser.goto, hs, hp, if_false] at hw ⊢
  exact hw

theorem Parser.Counts.mono {p : Parser} {n : Nat} (h : p.Counts n) : p.Counts (n + 1) :=
  ⟨h.words, Nat.le_succ_of_le h.length⟩

theorem Parser.Counts.start_word {p : Parser} {n : Nat} {s : ParseState} (h : p.Counts n) (hp : p.pstate = .blank)
    (hs : s ≠ .blank) : (({ p with argc := p.argc + 1 } : Parser).goto s).Counts n := by
  refine ⟨?_, h.length⟩
  have hw := h.words
  simp only [Parser.goto, hs, hp, if_true, if_false] at hw ⊢
  omega

theorem Parser.Counts.end_word {p : Parser} {n : Nat} (h : p.Counts n) (hp : p.pstate ≠ .blank) :
    ((p.goto .blank).put 0).Counts (n + 1) := by
  refine ⟨?_, by simpa [Parser.put, Parser.goto] using h.length⟩
  have hw := h.words
  simp only [Parser.put, Parser.goto, hp, if_true, if_false, count_append, count_singleton_self] at hw ⊢
  omega

theorem Parser.Counts.quoted {p : Parser} {n : Nat} {wordbreak c : Byte} (hc : c ≠ 0) (h : p.Counts n)
    (hp : p.pstate ≠ .blank) (ht : escapeToggle p.pstate ≠ .blank) : (p.quoted wordbreak c).Counts (n + 1) := by
  unfold Parser.quoted
  split
  · exact (h.goto_word hp (by decide)).mono
  · split
    · exact (h.goto_word hp ht).mono
    · exact h.put_char hc

theorem Parser.Counts.next {p : Parser} {n : Nat} {c : Byte} (hc : c ≠ 0) (h : p.Counts n) :
    (p.next c).Counts (n + 1) := by
  unfold Parser.next
  cases hp : p.pstate with
  | blank =>
    simp only
    split
    · exact h.mono
    · split
      · exact (h.start_word hp (by decide)).mono
      · split
        · exact (h.start_word hp (by decide)).mono
        · split
          · exact (h.start_word hp (by decide)).mono
          · exact (h.start_word hp (by decide)).put_char hc
  | unquoted =>
    have hw : p.pstate ≠ .blank := by rw [hp]; decide
    simp only
    split
    · exact (h.goto_word hw (by decide)).mono
    · split
      · exact (h.goto_word hw (by decide)).mono
      · split
        · exact (h.goto_word hw (by decide)).mono
        · split
          · exact h.end_word hw
          · exact h.put_char hc
  | singlequote | doublequote => exact h.quoted hc (by rw [hp]; decide) (by rw [hp]; decide)
  | unquotedEsc | singlequoteEsc | doublequoteEsc => exact (h.goto_word (by rw [hp]; decide) (by decide)).put_char hc

theorem counts_foldl (h0 : 0 ∉ line) (p : Parser) (n : Nat) (h : p.Counts n) :
    (line.foldl Parser.next p).Counts (n + line.length) := by
  induction line generalizing p n with
  | nil => exact h
  | cons c line ih =>
    rw [mem_cons, not_or] at h0
    have hnext := ih h0.2 (p.next c) (n + 1) (h.next (Ne.symm h0.1))
    rw [foldl_cons, length_cons, add_comm line.length 1, ← add_assoc]
    exact hnext

theorem parse_counts (h0 : 0 ∉ line) : (parse line).Counts line.length := by
  have h := counts_foldl line h0 ⟨.blank, 0, []⟩ 0 ⟨rfl, le_rfl⟩
  rwa [zero_add] at h

/-! ## Collecting the arguments -/

def wordBytes (ws : List (List Byte)) : Nat := (ws.map fun w => w.length + 1).sum

theorem cstr_append {w rest : List Byte} (h : 0 ∉ w) : cstr (w ++ 0 :: rest) = w := by
  unfold cstr
  rw [takeWhile_append_of_pos fun c hc => by simpa using fun he : c = 0 => h (he ▸ hc)]
  simp

theorem collect_fits (rest : List Byte) (n : Nat) (buf : List Byte) (hn : n ≤ buf.count 0) :
    wordBytes (collect n (buf ++ rest)) ≤ buf.length := by
  induction n generalizing buf with
  | zero => simp [collect, wordBytes]
  | succ n ih =>
    have hmem : (0 : Byte) ∈ buf := count_pos_iff.mp (by omega)
    obtain ⟨w, buf', rfl, hw⟩ := eq_append_cons_of_mem hmem
    rw [count_append, count_cons_self, count_eq_zero_of_not_mem hw] at hn
    have hsum := ih buf' (by omega)
    have hdrop : (w ++ 0 :: buf' ++ rest).drop (w.length + 1) = buf' ++ rest := by simp
    have hword : cstr (w ++ 0 :: buf' ++ rest) = w := by
      rw [append_assoc, cons_append]; exact cstr_append hw
    simp only [collect, hword, hdrop, wordBytes, map_cons, sum_cons, length_append,
      length_cons] at hsum ⊢
    omega

theorem argv_fits {line : List Byte} {argv : List (List Byte)} (h0 : 0 ∉ line)
    (h : handleInputLine line = .command argv) : wordBytes argv ≤ line.length + 1 := by
  unfold handleInputLine at h
  split at h
  · cases h
  · split at h
    · cases h
    · cases h
      have hc := parse_counts line h0
      have hw := hc.words
      have hbuf : buffer line = ((parse line).out ++ [0]) ++ (line ++ [0]).drop ((parse line).out.length + 1) := by
        simp [buffer]
      rw [hbuf]
      refine le_trans (collect_fits _ _ ((parse line).out ++ [0]) ?_) ?_
      · rw [count_append, count_singleton_self]
        split at hw <;> omega
      · have := hc.length
        rw [length_append, length_singleton]; omega

end PipRiot.Shell
