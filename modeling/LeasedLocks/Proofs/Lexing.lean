import LeasedLocks.Json.Lexer
import LeasedLocks.Json.Value
import Mathlib.Data.List.TakeDrop

/-!
# Cutting a written value into tokens

The tokens of a value are read off the value itself (`Json.toTokens`). Its spelling is cut
into just these (`Json.tokens_spell`), whatever texts and numbers it holds.

## Implementation notes

The lexer counts its fuel down by one for each token, and a token is at least one character.
`Json.Lexes` keeps that account for the spelling of a part, with whatever follows it.
-/

namespace LeasedLocks.Json

/-- How readers see a natural number. -/
def Numeral.ofNat (n : Nat) : Numeral := if doubleLimit ≤ n then .tooLarge else .natural n

/-- What stands before an item: a comma, unless it is the first one. -/
def separator (first : Bool) : List Token := if first then [] else [.comma]

mutual

/-- The tokens of a value. -/
def toTokens : Json → List Token
  | null => [.null]
  | bool b => [.bool b]
  | number n => [.number (.ofNat n)]
  | string s => [.string (some s)]
  | array items => .openArray :: itemTokens true items ++ [.closeArray]
  | object entries => .openObject :: entryTokens true entries ++ [.closeObject]

/-- The tokens of items, from the first one on or behind it. -/
def itemTokens (first : Bool) : List Json → List Token
  | [] => []
  | j :: js => separator first ++ j.toTokens ++ itemTokens false js

/-- The tokens of entries, from the first one on or behind it. -/
def entryTokens (first : Bool) : List (String × Json) → List Token
  | [] => []
  | (key, j) :: rest =>
    separator first ++ .string (some key) :: .colon :: j.toTokens ++ entryTokens false rest

end

/-- A text is cut into these tokens when this follows it; what follows has fuel left. -/
def Lexes (text : List Char) (ts : List Token) (rest : List Char) : Prop :=
  ∀ fuel, (text ++ rest).length ≤ fuel → ∃ left, rest.length ≤ left ∧
    tokensWithin fuel (text ++ rest) = ts ++ tokensWithin left rest

/-- Nothing follows, or something that ends an item. -/
def Ends (rest : List Char) : Prop := ∀ c ∈ rest.head?, c = ',' ∨ c = ']' ∨ c = '}'

variable {text text' rest : List Char} {ts ts' : List Token} {t : Token} {c : Char}

theorem Lexes.nil (rest : List Char) : Lexes [] [] rest := fun fuel h => ⟨fuel, h, rfl⟩

theorem Lexes.append (h : Lexes text ts (text' ++ rest)) (h' : Lexes text' ts' rest) :
    Lexes (text ++ text') (ts ++ ts') rest := by
  intro fuel hfuel
  rw [List.append_assoc] at hfuel ⊢
  obtain ⟨left, hleft, heq⟩ := h fuel hfuel
  obtain ⟨left', hleft', heq'⟩ := h' left hleft
  exact ⟨left', hleft', by rw [heq, heq', List.append_assoc]⟩

/-- A text that starts with no blank and is one token. -/
theorem Lexes.token (hc : isGap c = false) (h : token? (c :: text ++ rest) = some (t, rest)) :
    Lexes (c :: text) [t] rest := by
  intro fuel hfuel
  cases fuel with
  | zero => cases hfuel
  | succ fuel =>
      refine ⟨fuel, ?_, ?_⟩
      · rw [List.cons_append, List.length_cons, List.length_append] at hfuel
        omega
      · rw [List.cons_append] at h ⊢
        simp only [tokensWithin, List.dropWhile_cons, hc, Bool.false_eq_true, if_false, h]
        rfl

/-! ## Texts between quotes -/

/-- The code of a control character is read as that character. -/
theorem ofUnit_of_hexDigits (h : c.toNat < 32) :
    (hexUnit? '0' '0' (hexDigit (c.toNat / 16)) (hexDigit (c.toNat % 16))).map Piece.ofUnit =
      some (.char c) := by
  have hhigh : hexValue? (hexDigit (c.toNat / 16)) = some (c.toNat / 16) :=
    hexValue?_hexDigit (by omega)
  have hlow : hexValue? (hexDigit (c.toNat % 16)) = some (c.toNat % 16) :=
    hexValue?_hexDigit (by omega)
  have hzero : hexValue? '0' = some 0 := by decide
  have hcode : 0 * 4096 + 0 * 256 + c.toNat / 16 * 16 + c.toNat % 16 = c.toNat := by omega
  simp only [hexUnit?, hzero, hhigh, hlow, Option.bind_eq_bind, Option.bind_some, pure,
    hcode, Option.map_some]
  rw [Piece.ofUnit, if_neg (by omega), Char.ofNat_toNat]

/-- A character that was written is read as itself. -/
theorem pieces_escape (c : Char) (rest : List Char) :
    pieces (escape c ++ rest) = (pieces rest).map fun (ps, rest) => (.char c :: ps, rest) := by
  unfold escape
  split
  · next h => simp [pieces, shortEscape?, h]
  split
  · next h => simp [pieces, shortEscape?, h]
  split
  · next h => simp [pieces, shortEscape?, h]
  split
  · next h => simp [pieces, shortEscape?, h]
  split
  · next h => simp [pieces, shortEscape?, h]
  split
  · next h => simp [pieces, shortEscape?, h]
  split
  · next h => simp [pieces, shortEscape?, h]
  split
  · next h =>
      obtain ⟨unit, hunit, hpiece⟩ := Option.map_eq_some_iff.mp (ofUnit_of_hexDigits h)
      simp only [List.cons_append, List.nil_append, pieces, hunit, hpiece]
  · next hquote hbackslash _ _ _ _ _ hcontrol =>
      -- the character is none of those that the reader treats specially
      rw [List.singleton_append, pieces.eq_def]
      split
      · simp_all
      · simp_all
      · simp_all
      · simp_all
      · next heq =>
          obtain ⟨rfl, rfl⟩ := List.cons_eq_cons.mp heq
          rw [if_neg (not_or.mpr ⟨hcontrol, hbackslash⟩)]

theorem pieces_flatMap_escape (s rest : List Char) :
    pieces (s.flatMap escape ++ '"' :: rest) = some (s.map .char, rest) := by
  induction s with
  | nil => simp [pieces]
  | cons c s ih =>
      rw [List.flatMap_cons, List.append_assoc, pieces_escape, ih]
      rfl

theorem lexes_quote (s : String) (rest : List Char) :
    Lexes (quote s.toList) [.string (some s)] rest := by
  apply Lexes.token (by decide)
  have hpieces := pieces_flatMap_escape s.toList rest
  change (pieces ((s.toList.flatMap escape ++ ['"']) ++ rest)).map _ = _
  rw [List.append_assoc, List.singleton_append, hpieces]
  simp only [Option.map_some, joinPieces_map_char, String.ofList_toList]

/-! ## Numbers -/

/-- What ends an item goes on with neither a digit nor anything else of a number. -/
theorem Ends.cases (h : Ends rest) :
    rest = [] ∨ ∃ c tail, rest = c :: tail ∧ c.isDigit = false ∧ c ≠ '.' ∧ c ≠ 'e' ∧ c ≠ 'E' := by
  cases rest with
  | nil => exact .inl rfl
  | cons c tail =>
      refine .inr ⟨c, tail, rfl, ?_⟩
      rcases h c rfl with rfl | rfl | rfl
      · decide
      · decide
      · decide

theorem isTooLarge_eq (n digits : Nat) : isTooLarge n digits 0 0 = decide (doubleLimit ≤ n) := by
  have hpos : ¬ doubleLimit ≤ 0 := by decide +kernel
  unfold isTooLarge
  split
  · next h => simp [h, hpos]
  · simp

/-- A number is over where an item ends. -/
theorem numeralAfter_of_ends (whole : List Char) (h : Ends rest) :
    numeralAfter false whole rest = some (.ofNat (digitsValue whole), rest) := by
  have hfraction : fractionPart rest = some ([], rest) := by
    obtain rfl | ⟨c, tail, rfl, -, hpoint, -⟩ := h.cases
    · rfl
    · unfold fractionPart
      split
      · next heq => exact absurd (List.cons_eq_cons.mp heq).1 hpoint
      · rfl
  have hexponent : exponentPart rest = some (none, rest) := by
    obtain rfl | ⟨c, tail, rfl, -, -, he, hE⟩ := h.cases
    · rfl
    · unfold exponentPart
      exact if_neg (not_or.mpr ⟨he, hE⟩)
  simp only [numeralAfter, hfraction, hexponent, Option.bind_eq_bind, Option.bind_some,
    List.append_nil, List.length_nil, Nat.add_zero, Option.getD_none, isTooLarge_eq, pure]
  simp [Numeral.ofNat]

/-- The first digit of a number other than zero is none. -/
theorem toDigits_head {n : Nat} (h : 0 < n) :
    ∃ c ds, Nat.toDigits 10 n = c :: ds ∧ c ≠ '0' := by
  induction n using Nat.strongRecOn with
  | ind n ih =>
      by_cases hlt : n < 10
      · refine ⟨Nat.digitChar n, [], Nat.toDigits_of_lt_base hlt, ?_⟩
        intro hzero
        have hval := Nat.toNat_digitChar_of_lt_ten hlt
        rw [hzero] at hval
        change 48 = 48 + n at hval
        omega
      · have hhead : 0 < n / 10 := Nat.div_pos (Nat.le_of_not_lt hlt) (by decide)
        have hlast : n % 10 < 10 := Nat.mod_lt n (by decide)
        obtain ⟨c, ds, hds, hc⟩ := ih (n / 10) (by omega) hhead
        have hsplit := Nat.toDigits_append_toDigits (b := 10) (n := n / 10) (d := n % 10)
          (by decide) hhead hlast
        rw [Nat.div_add_mod, hds] at hsplit
        exact ⟨c, _, hsplit.symm, hc⟩

theorem span_isDigit {ds : List Char} (hds : ∀ c ∈ ds, c.isDigit = true) (h : Ends rest) :
    (ds ++ rest).span Char.isDigit = (ds, rest) := by
  rw [List.span_eq_takeWhile_dropWhile, List.takeWhile_append_of_pos hds,
    List.dropWhile_append_of_pos hds]
  obtain rfl | ⟨c, tail, rfl, hdigit, -⟩ := h.cases
  · simp
  · simp [hdigit]

/-- The digits of a number are read as the number. -/
theorem numeral?_toDigits (n : Nat) (h : Ends rest) :
    numeral? false (Nat.toDigits 10 n ++ rest) = some (.ofNat n, rest) := by
  by_cases hn : n = 0
  · subst hn
    have hafter := numeralAfter_of_ends ['0'] h
    change numeral? false ('0' :: rest) = some (.ofNat (digitsValue ['0']), rest)
    obtain rfl | ⟨c, tail, rfl, hdigit, -⟩ := h.cases
    · exact hafter
    · simpa only [numeral?, hdigit, Bool.false_eq_true, if_false] using hafter
  · obtain ⟨c, ds, hds, hc⟩ := toDigits_head (Nat.pos_of_ne_zero hn)
    have hdigits : ∀ d ∈ c :: ds, d.isDigit = true := fun d hd =>
      Nat.isDigit_of_mem_toDigits (by decide) (by decide) (hds ▸ hd)
    have hspan := span_isDigit (fun d hd => hdigits d (List.mem_cons_of_mem c hd)) h
    have hafter := numeralAfter_of_ends (c :: ds) h
    rw [← hds, digitsValue_toDigits, hds] at hafter
    rw [hds, List.cons_append, numeral?.eq_def]
    split
    · next heq => cases heq
    · next heq => exact absurd (List.cons_eq_cons.mp heq).1 hc
    · next heq =>
        obtain ⟨rfl, rfl⟩ := List.cons_eq_cons.mp heq
        rw [if_pos (hdigits c List.mem_cons_self), hspan]
        exact hafter

/-- No token but a number starts with a digit. -/
theorem token?_of_isDigit (hc : c.isDigit = true) (text : List Char) :
    token? (c :: text) = (numeral? false (c :: text)).map fun (n, rest) => (.number n, rest) := by
  have hne : ∀ d : Char, d.isDigit = false → c ≠ d := by
    rintro d hd rfl
    rw [hc] at hd
    cases hd
  unfold token?
  split
  · next heq => cases heq
  -- every other token starts with a character that is no digit
  all_goals next heq =>
    first
    | exact absurd (List.cons_eq_cons.mp heq).1 (hne _ (by decide))
    | rw [heq]

theorem lexes_toDigits (n : Nat) (h : Ends rest) :
    Lexes (Nat.toDigits 10 n) [.number (.ofNat n)] rest := by
  have hnumeral := numeral?_toDigits n h
  have hdigits : ∀ d ∈ Nat.toDigits 10 n, d.isDigit = true := fun d hd =>
    Nat.isDigit_of_mem_toDigits (by decide) (by decide) hd
  cases hds : Nat.toDigits 10 n with
  | nil => exact absurd hds Nat.toDigits_ne_nil
  | cons c ds =>
      rw [hds] at hnumeral hdigits
      have hc := hdigits c List.mem_cons_self
      apply Lexes.token
      · by_contra hgap
        rw [Bool.not_eq_false] at hgap
        simp only [isGap, Bool.or_eq_true, decide_eq_true_eq] at hgap
        obtain ((rfl | rfl) | rfl) | rfl := hgap <;> cases hc
      · rw [List.cons_append, token?_of_isDigit hc, ← List.cons_append, hnumeral]
        rfl

/-! ## Values -/

/-- Items behind the first one are those from the first one on, with a comma in front. -/
theorem itemTokens_false (j : Json) (js : List Json) :
    itemTokens false (j :: js) = .comma :: itemTokens true (j :: js) := by
  simp [itemTokens, separator]

theorem entryTokens_false (e : String × Json) (es : List (String × Json)) :
    entryTokens false (e :: es) = .comma :: entryTokens true (e :: es) := by
  simp [entryTokens, separator]

theorem ends_cons (hc : c = ',' ∨ c = ']' ∨ c = '}') (tail : List Char) : Ends (c :: tail) := by
  rintro d ⟨⟩
  exact hc

/-- A mark is a token of its own. -/
theorem lexes_mark (c : Char) (t : Token) (rest : List Char) (hc : isGap c = false := by decide)
    (ht : token? (c :: rest) = some (t, rest) := by rfl) : Lexes [c] [t] rest :=
  Lexes.token hc ht

mutual

theorem lexes_spell : ∀ (j : Json) (rest : List Char), Ends rest → Lexes j.spell j.toTokens rest
  | .array js, rest, _ => by
      have hitems := (lexes_spellItems js rest).append (lexes_mark ']' .closeArray rest)
      exact (lexes_mark '[' .openArray _).append hitems
  | .object es, rest, _ => by
      have hentries := (lexes_spellEntries es rest).append (lexes_mark '}' .closeObject rest)
      exact (lexes_mark '{' .openObject _).append hentries
  | .null, rest, _ => by
      change Lexes ['n', 'u', 'l', 'l'] [.null] rest
      exact Lexes.token (by decide) rfl
  | .bool true, rest, _ => by
      change Lexes ['t', 'r', 'u', 'e'] [.bool true] rest
      exact Lexes.token (by decide) rfl
  | .bool false, rest, _ => by
      change Lexes ['f', 'a', 'l', 's', 'e'] [.bool false] rest
      exact Lexes.token (by decide) rfl
  | .number n, rest, h => lexes_toDigits n h
  | .string s, rest, _ => lexes_quote s rest

theorem lexes_spellItems : ∀ (js : List Json) (rest : List Char),
    Lexes (spellItems js) (itemTokens true js) (']' :: rest)
  | [], rest => Lexes.nil _
  | [j], rest => by
      have hj := lexes_spell j (']' :: rest) (ends_cons (by decide) _)
      simpa [spellItems, itemTokens, separator] using hj
  | j :: j' :: js, rest => by
      have hmore := (lexes_mark ',' .comma _).append (lexes_spellItems (j' :: js) rest)
      have hj := lexes_spell j (',' :: spellItems (j' :: js) ++ ']' :: rest)
        (ends_cons (by decide) _)
      have htokens : itemTokens true (j :: j' :: js) =
          j.toTokens ++ .comma :: itemTokens true (j' :: js) := by
        rw [itemTokens, itemTokens_false]
        rfl
      rw [htokens]
      exact hj.append hmore

theorem lexes_spellEntries : ∀ (es : List (String × Json)) (rest : List Char),
    Lexes (spellEntries es) (entryTokens true es) ('}' :: rest)
  | [], rest => Lexes.nil _
  | [(key, j)], rest => by
      have hj := lexes_spell j ('}' :: rest) (ends_cons (by decide) _)
      have hentry := (lexes_quote key _).append ((lexes_mark ':' .colon _).append hj)
      simpa [spellEntries, entryTokens, separator] using hentry
  | (key, j) :: e :: es, rest => by
      have hmore := (lexes_mark ',' .comma _).append (lexes_spellEntries (e :: es) rest)
      have hj := lexes_spell j (',' :: spellEntries (e :: es) ++ '}' :: rest)
        (ends_cons (by decide) _)
      have hentry := (lexes_quote key _).append ((lexes_mark ':' .colon _).append hj)
      have htokens : entryTokens true ((key, j) :: e :: es) =
          ([.string (some key)] ++ ([.colon] ++ j.toTokens)) ++
            .comma :: entryTokens true (e :: es) := by
        rw [entryTokens, entryTokens_false]
        rfl
      rw [htokens]
      exact hentry.append hmore

end

/-- The tokens of a spelling are those of the value. -/
theorem tokens_spell (j : Json) : tokens j.spell = j.toTokens := by
  obtain ⟨left, -, heq⟩ := lexes_spell j [] nofun j.spell.length (by simp)
  have hnone : tokensWithin left [] = [] := by
    cases left <;> rfl
  rw [List.append_nil, hnone, List.append_nil] at heq
  exact heq

end LeasedLocks.Json
