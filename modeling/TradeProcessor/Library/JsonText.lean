/-
  Library/JsonText.lean --- what a JSON text says.

  A decoder for the grammar of RFC 8259.  A number is kept as it is written, an
  object as the list of its members, in order and with duplicates.  A surrogate
  without its other half, which the grammar admits and which is no character, is
  read as the replacement character.

  The functions that call themselves take fuel.  Each call but the last consumes a
  character, so that the length of the text is enough.
-/
import Mathlib

set_option autoImplicit false

namespace TradeProcessor.Library.JsonText

inductive Document where
  | null
  | boolean (b : Bool)
  | number (lexeme : String)
  | string (s : String)
  | array (elements : List Document)
  | object (members : List (String × Document))

/-! ## Tokens -/

def isSpace (c : Char) : Bool := c == ' ' || c == '\t' || c == '\n' || c == '\r'

def skipSpace (cs : List Char) : List Char := cs.dropWhile isSpace

/-- What follows a structural character, with the space before it. -/
def expect (c : Char) (cs : List Char) : Option (List Char) :=
  match skipSpace cs with
  | [] => none
  | d :: rest => if d = c then some rest else none

/-- What follows a word. -/
def literal (word cs : List Char) : Option (List Char) :=
  if word.isPrefixOf cs then some (cs.drop word.length) else none

def digits (cs : List Char) : Option (List Char × List Char) :=
  match cs.span Char.isDigit with
  | ([], _) => none
  | run => some run

/-- An optional character of the given ones. -/
def optional (choice cs : List Char) : List Char × List Char :=
  match cs with
  | [] => ([], [])
  | c :: rest => if c ∈ choice then ([c], rest) else ([], cs)

/-- No digit follows a leading zero. -/
def integerPart (cs : List Char) : Option (List Char × List Char) :=
  match optional ['0'] cs with
  | ([], _) => digits cs
  | zero => some zero

def fraction (cs : List Char) : Option (List Char × List Char) :=
  match optional ['.'] cs with
  | ([], _) => some ([], cs)
  | (point, rest) => (digits rest).map fun r => (point ++ r.1, r.2)

def exponent (cs : List Char) : Option (List Char × List Char) :=
  match optional ['e', 'E'] cs with
  | ([], _) => some ([], cs)
  | (e, rest) =>
      let sign := optional ['+', '-'] rest
      (digits sign.2).map fun r => (e ++ sign.1 ++ r.1, r.2)

def number (cs : List Char) : Option (List Char × List Char) := do
  let minus := optional ['-'] cs
  let int ← integerPart minus.2
  let frac ← fraction int.2
  let exp ← exponent frac.2
  some (minus.1 ++ int.1 ++ frac.1 ++ exp.1, exp.2)

/-! ## Strings -/

/-- The character stands for itself in a string. -/
def Plain (c : Char) : Prop := c ≠ '"' ∧ c ≠ '\\' ∧ 0x20 ≤ c.toNat

instance (c : Char) : Decidable (Plain c) := inferInstanceAs (Decidable (_ ∧ _))

def hexDigit (c : Char) : Option Nat :=
  if '0' ≤ c ∧ c ≤ '9' then some (c.toNat - '0'.toNat)
  else if 'a' ≤ c ∧ c ≤ 'f' then some (c.toNat - 'a'.toNat + 10)
  else if 'A' ≤ c ∧ c ≤ 'F' then some (c.toNat - 'A'.toNat + 10)
  else none

def hex4 : List Char → Option (Nat × List Char)
  | a :: b :: c :: d :: rest => do
      let a ← hexDigit a
      let b ← hexDigit b
      let c ← hexDigit c
      let d ← hexDigit d
      some (((a * 16 + b) * 16 + c) * 16 + d, rest)
  | _ => none

def replacement : Char := '\uFFFD'

/-- The second half of a surrogate pair. -/
def lowSurrogate (cs : List Char) : Option (Nat × List Char) := do
  let rest ← literal ['\\', 'u'] cs
  let low ← hex4 rest
  if 0xDC00 ≤ low.1 ∧ low.1 < 0xE000 then some low else none

/-- The character of an escaped code unit, and of the one after it for a pair. -/
def codePoint (n : Nat) (rest : List Char) : Char × List Char :=
  if 0xD800 ≤ n ∧ n < 0xDC00 then
    match lowSurrogate rest with
    | some (m, rest) => (Char.ofNat (0x10000 + (n - 0xD800) * 0x400 + (m - 0xDC00)), rest)
    | none => (replacement, rest)
  else if 0xDC00 ≤ n ∧ n < 0xE000 then (replacement, rest)
  else (Char.ofNat n, rest)

def shortEscape (c : Char) : Option Char :=
  if c = '"' ∨ c = '\\' ∨ c = '/' then some c
  else if c = 'b' then some '\x08'
  else if c = 'f' then some '\x0c'
  else if c = 'n' then some '\n'
  else if c = 'r' then some '\r'
  else if c = 't' then some '\t'
  else none

/-- What follows a backslash. -/
def escape : List Char → Option (Char × List Char)
  | [] => none
  | c :: rest =>
      if c = 'u' then (hex4 rest).map fun r => codePoint r.1 r.2
      else (shortEscape c).map fun e => (e, rest)

/-- A string after its opening quote, up to its closing one. -/
def stringBody : Nat → List Char → Option (List Char × List Char)
  | 0, _ | _, [] => none
  | fuel + 1, c :: cs =>
      if c = '"' then some ([], cs)
      else if c = '\\' then do
        let (e, rest) ← escape cs
        let (s, rest) ← stringBody fuel rest
        some (e :: s, rest)
      else if c.toNat < 0x20 then none
      else do
        let (s, rest) ← stringBody fuel cs
        some (c :: s, rest)

/-! ### Where a string ends -/

theorem literal_suffix {word cs rest : List Char} (h : literal word cs = some rest) :
    rest <:+ cs := by
  unfold literal at h
  split at h
  · cases h
    exact List.drop_suffix _ _
  · cases h

theorem hex4_suffix {cs rest : List Char} {n : Nat} (h : hex4 cs = some (n, rest)) :
    rest <:+ cs := by
  unfold hex4 at h
  split at h
  · simp only [Option.bind_eq_bind, Option.bind_eq_some_iff, Option.some.injEq,
      Prod.mk.injEq] at h
    obtain ⟨_, _, _, _, _, _, _, _, _, rfl⟩ := h
    exact ⟨[_, _, _, _], rfl⟩
  · cases h

theorem lowSurrogate_suffix {cs rest : List Char} {n : Nat}
    (h : lowSurrogate cs = some (n, rest)) : rest <:+ cs := by
  simp only [lowSurrogate, Option.bind_eq_bind, Option.bind_eq_some_iff] at h
  obtain ⟨digits, hliteral, low, hhex, h⟩ := h
  split at h
  · cases h
    exact (hex4_suffix hhex).trans (literal_suffix hliteral)
  · cases h

theorem codePoint_suffix (n : Nat) (cs : List Char) : (codePoint n cs).2 <:+ cs := by
  unfold codePoint
  split
  · split
    · rename_i hlow
      exact lowSurrogate_suffix hlow
    · exact List.suffix_rfl
  · split <;> exact List.suffix_rfl

/-- An escape is at least one character. -/
theorem escape_suffix {cs rest : List Char} {e : Char} (h : escape cs = some (e, rest)) :
    ∃ c used, cs = c :: (used ++ rest) := by
  cases cs with
  | nil => cases h
  | cons c cs =>
      have hsuffix : rest <:+ cs := by
        simp only [escape] at h
        split at h
        · obtain ⟨⟨n, after⟩, hhex, hpoint⟩ := Option.map_eq_some_iff.mp h
          have htail : (codePoint n after).2 = rest := congrArg Prod.snd hpoint
          rw [← htail]
          exact (codePoint_suffix n after).trans (hex4_suffix hhex)
        · obtain ⟨_, _, hpair⟩ := Option.map_eq_some_iff.mp h
          cases hpair
          exact List.suffix_rfl
      obtain ⟨used, rfl⟩ := hsuffix
      exact ⟨c, used, rfl⟩

/-- The characters between the quotes are at least as many as those they say, and when
they are no more, they are these. -/
theorem stringBody_eq_some {fuel : Nat} {cs s rest : List Char}
    (h : stringBody fuel cs = some (s, rest)) :
    ∃ raw, cs = raw ++ '"' :: rest ∧ s.length ≤ raw.length ∧
      (s.length = raw.length → raw = s ∧ ∀ c ∈ raw, Plain c) := by
  induction fuel generalizing cs s with
  | zero => cases h
  | succ fuel ih =>
      cases cs with
      | nil => cases h
      | cons c cs =>
          simp only [stringBody] at h
          split at h
          · rename_i hquote
            cases h
            exact ⟨[], by rw [hquote]; rfl, le_rfl, fun _ => ⟨rfl, by simp⟩⟩
          · rename_i hquote
            split at h
            · simp only [Option.bind_eq_bind, Option.bind_eq_some_iff] at h
              obtain ⟨⟨e, after⟩, hescape, ⟨t, end_⟩, hbody, hpair⟩ := h
              cases hpair
              obtain ⟨d, used, rfl⟩ := escape_suffix hescape
              obtain ⟨raw, rfl, hle, _⟩ := ih hbody
              refine ⟨c :: d :: (used ++ raw), by simp, ?_, fun heq => ?_⟩
              · simp only [List.length_cons, List.length_append]
                omega
              · simp only [List.length_cons, List.length_append] at heq
                omega
            · rename_i hbackslash
              split at h
              · cases h
              · rename_i hcontrol
                simp only [Option.bind_eq_bind, Option.bind_eq_some_iff] at h
                obtain ⟨⟨t, end_⟩, hbody, hpair⟩ := h
                cases hpair
                obtain ⟨raw, rfl, hle, hsame⟩ := ih hbody
                refine ⟨c :: raw, rfl, Nat.succ_le_succ hle, fun heq => ?_⟩
                obtain ⟨rfl, hplain⟩ := hsame (Nat.succ.inj heq)
                refine ⟨rfl, fun d hd => ?_⟩
                rcases List.mem_cons.mp hd with rfl | hd
                · exact ⟨hquote, hbackslash, by omega⟩
                · exact hplain d hd

/-! ### Writing a string -/

def hexChar (n : Nat) : Char := if n < 10 then Char.ofNat (48 + n) else Char.ofNat (87 + n)

/-- A character as it may stand between quotes. -/
def escaped (c : Char) : List Char :=
  if c = '"' ∨ c = '\\' then ['\\', c]
  else if c.toNat < 0x20 then
    ['\\', 'u', '0', '0', hexChar (c.toNat / 16), hexChar (c.toNat % 16)]
  else [c]

theorem escaped_of_plain {c : Char} (h : Plain c) : escaped c = [c] := by
  obtain ⟨hquote, hbackslash, hcontrol⟩ := h
  rw [escaped, if_neg (by simp [hquote, hbackslash]), if_neg (by omega)]

theorem flatMap_escaped_of_plain {s : List Char} (h : ∀ c ∈ s, Plain c) :
    s.flatMap escaped = s := by
  induction s with
  | nil => rfl
  | cons c s ih =>
      rw [List.flatMap_cons, escaped_of_plain (h c (by simp)),
        ih fun d hd => h d (by simp [hd])]
      rfl

theorem length_le_flatMap_escaped (s : List Char) : s.length ≤ (s.flatMap escaped).length := by
  induction s with
  | nil => exact le_rfl
  | cons c s ih =>
      have hone : 1 ≤ (escaped c).length := by
        unfold escaped
        split_ifs <;> simp
      rw [List.flatMap_cons, List.length_append, List.length_cons]
      omega

theorem hexDigit_hexChar {n : Nat} (h : n < 16) : hexDigit (hexChar n) = some n := by
  interval_cases n <;> decide

/-- A control character is read from its four digits. -/
theorem escape_control {c : Char} (h : c.toNat < 0x20) (rest : List Char) :
    escape ('u' :: '0' :: '0' :: hexChar (c.toNat / 16) :: hexChar (c.toNat % 16) :: rest) =
      some (c, rest) := by
  have hhigh : hexDigit (hexChar (c.toNat / 16)) = some (c.toNat / 16) :=
    hexDigit_hexChar (by omega)
  have hlow : hexDigit (hexChar (c.toNat % 16)) = some (c.toNat % 16) :=
    hexDigit_hexChar (by omega)
  have hzero : hexDigit '0' = some 0 := by decide
  have hvalue : ((0 * 16 + 0) * 16 + c.toNat / 16) * 16 + c.toNat % 16 = c.toNat := by omega
  rw [escape, if_pos rfl, hex4]
  simp only [hhigh, hlow, hzero, Option.bind_eq_bind, Option.bind_some, Option.map_some, hvalue]
  rw [codePoint, if_neg (by omega), if_neg (by omega), Char.ofNat_toNat]

/-- What is written is read. -/
theorem stringBody_escaped {fuel : Nat} {s : List Char} (h : s.length < fuel)
    (rest : List Char) :
    stringBody fuel (s.flatMap escaped ++ '"' :: rest) = some (s, rest) := by
  induction s generalizing fuel with
  | nil =>
      obtain ⟨fuel, rfl⟩ := Nat.exists_eq_add_one.mpr h
      rfl
  | cons c s ih =>
      obtain ⟨fuel, rfl⟩ : ∃ n, fuel = n + 1 := ⟨fuel - 1, by simp at h; omega⟩
      have hbody := ih (Nat.lt_of_succ_lt_succ h)
      rw [List.flatMap_cons, List.append_assoc, escaped]
      split
      · rename_i hspecial
        have hshort : ∀ after, escape (c :: after) = some (c, after) := by
          intro after
          rcases hspecial with rfl | rfl <;> rfl
        simp [stringBody, hshort, hbody]
      · rename_i hspecial
        obtain ⟨hquote, hbackslash⟩ := not_or.mp hspecial
        split
        · rename_i hcontrol
          simp [stringBody, escape_control hcontrol, hbody]
        · rename_i hcontrol
          simp [stringBody, hquote, hbackslash, hcontrol, hbody]

/-! ## Values -/

/-- The items after the first, up to the closing character. -/
def further {α : Type} (close : Char) (more : List Char → Option (List α × List Char))
    (cs : List Char) : Option (List α × List Char) :=
  match expect ',' cs with
  | some rest => more rest
  | none => (expect close cs).map fun rest => ([], rest)

mutual

def value : Nat → List Char → Option (Document × List Char)
  | 0, _ => none
  | fuel + 1, cs =>
      match skipSpace cs with
      | [] => none
      | c :: rest =>
          if c = '"' then (stringBody fuel rest).map fun r => (.string (String.ofList r.1), r.2)
          else if c = '\x7b' then
            match expect '\x7d' rest with
            | some rest => some (.object [], rest)
            | none => (members fuel rest).map fun r => (.object r.1, r.2)
          else if c = '[' then
            match expect ']' rest with
            | some rest => some (.array [], rest)
            | none => (elements fuel rest).map fun r => (.array r.1, r.2)
          else if c = 't' then
            (literal ['r', 'u', 'e'] rest).map fun rest => (.boolean true, rest)
          else if c = 'f' then
            (literal ['a', 'l', 's', 'e'] rest).map fun rest => (.boolean false, rest)
          else if c = 'n' then (literal ['u', 'l', 'l'] rest).map fun rest => (.null, rest)
          else (number (c :: rest)).map fun r => (.number (String.ofList r.1), r.2)

/-- The members of an object, up to its closing brace. -/
def members : Nat → List Char → Option (List (String × Document) × List Char)
  | 0, _ => none
  | fuel + 1, cs => do
      let rest ← expect '"' cs
      let name ← stringBody fuel rest
      let rest ← expect ':' name.2
      let v ← value fuel rest
      let ms ← further '\x7d' (members fuel) v.2
      some ((String.ofList name.1, v.1) :: ms.1, ms.2)

/-- The elements of an array, up to its closing bracket. -/
def elements : Nat → List Char → Option (List Document × List Char)
  | 0, _ => none
  | fuel + 1, cs => do
      let v ← value fuel cs
      let vs ← further ']' (elements fuel) v.2
      some (v.1 :: vs.1, vs.2)

end

/-! ### Reading what is written -/

theorem expect_cons {c : Char} (h : isSpace c = false) (rest : List Char) :
    expect c (c :: rest) = some rest := by
  simp [expect, skipSpace, h]

theorem value_quote (fuel : Nat) (cs : List Char) :
    value (fuel + 1) ('"' :: cs) =
      (stringBody fuel cs).map fun r => (.string (String.ofList r.1), r.2) := by
  simp [value, skipSpace, isSpace]

/-- A plain string is read as it stands. -/
theorem stringBody_plain {fuel : Nat} {s : List Char} (h : s.length < fuel)
    (hplain : ∀ c ∈ s, Plain c) (rest : List Char) :
    stringBody fuel (s ++ '"' :: rest) = some (s, rest) := by
  have hbody := stringBody_escaped h rest
  rwa [flatMap_escaped_of_plain hplain] at hbody

theorem value_plain {fuel : Nat} {s : List Char} (h : s.length < fuel)
    (hplain : ∀ c ∈ s, Plain c)
    (rest : List Char) :
    value (fuel + 1) ('"' :: (s ++ '"' :: rest)) = some (.string (String.ofList s), rest) := by
  rw [value_quote, stringBody_plain h hplain, Option.map_some]

/-- An object with a member after its brace. -/
theorem value_brace (fuel : Nat) (cs : List Char) :
    value (fuel + 1) ('\x7b' :: '"' :: cs) =
      (members fuel ('"' :: cs)).map fun r => (.object r.1, r.2) := by
  simp [value, skipSpace, isSpace, expect]

/-- A member whose name is plain. -/
theorem members_plain {fuel : Nat} {name : List Char} (h : name.length < fuel)
    (hplain : ∀ c ∈ name, Plain c) (cs : List Char) :
    members (fuel + 1) ('"' :: (name ++ '"' :: ':' :: cs)) = (do
      let v ← value fuel cs
      let ms ← further '\x7d' (members fuel) v.2
      some ((String.ofList name, v.1) :: ms.1, ms.2)) := by
  rw [members, expect_cons rfl, Option.bind_eq_bind, Option.bind_some,
    stringBody_plain h hplain, Option.bind_eq_bind, Option.bind_some, expect_cons rfl]
  rfl

theorem further_comma {α : Type} (close : Char)
    (more : List Char → Option (List α × List Char)) (cs : List Char) :
    further close more (',' :: cs) = more cs := by
  rw [further, expect_cons rfl]

/-- The document that a text is; none, if it is not a JSON text. -/
def decode (text : String) : Option Document := do
  let (document, rest) ← value (text.length + 1) text.toList
  if skipSpace rest = [] then some document else none

end TradeProcessor.Library.JsonText
