import LeasedLocks.Json.Reader
import LeasedLocks.Proofs.Lexing

/-!
# Reading a written value

Where a reader may go down `level` levels it gets from the tokens of a value what was written
there, and leaves what follows; a value that nests deeper is no JSON to it (`Json.Reads`).
Readers of arrays and records have this from the readers of their parts.

## Implementation notes

The entries of an object change a draft one after the other (`Json.Fills`). Which fields the
object has and in which order does not matter to the reader, so the same relation serves
objects in which fields are left out.
-/

namespace LeasedLocks.Json

variable {α β σ : Type}

/-! ## Up to a depth -/

/-- What comes of reading something as deep as `depth` where `level` levels are allowed. -/
structure Within (level depth : Nat) (x : Except ReadFault α) (a : α) : Prop where
  fits : depth ≤ level → x = .ok a
  deep : level < depth → x = .error .malformed

namespace Within

variable {level depth depth' : Nat} {x : Except ReadFault α} {a : α} {b : β}

theorem ok (level : Nat) (a : α) : Within level 0 (.ok a) a where
  fits _ := rfl
  deep hlt := absurd hlt (Nat.not_lt_zero level)

/-- The deeper of two parts decides. -/
theorem bind {f : α → Except ReadFault β} (h : Within level depth x a)
    (h' : Within level depth' (f a) b) : Within level (max depth depth') (x.bind f) b := by
  constructor
  · intro hd
    obtain ⟨hx, hf⟩ := Nat.max_le.mp hd
    rw [h.fits hx]
    exact h'.fits hf
  · intro hd
    by_cases hx : depth ≤ level
    · rw [h.fits hx]
      exact h'.deep (by omega)
    · rw [h.deep (Nat.lt_of_not_le hx)]
      rfl

theorem map (h : Within level depth x a) (f : α → β) :
    Within level depth (x.map f) (f a) where
  fits hd := by rw [h.fits hd]; rfl
  deep hd := by rw [h.deep hd]; rfl

/-- Brackets take one level of those that are allowed. -/
theorem nested (h : Within level depth x a) : Within (level + 1) (depth + 1) x a where
  fits hd := h.fits (Nat.le_of_succ_le_succ hd)
  deep hd := h.deep (Nat.lt_of_succ_lt_succ hd)

theorem refused (depth : Nat) (a : α) : Within 0 (depth + 1) (.error .malformed) a where
  fits hd := absurd hd (Nat.not_succ_le_zero depth)
  deep _ := rfl

end Within

/-- The reader gets `a` from the value `j`, unless `j` nests deeper than `level`. -/
def Reads (r : Reader α) (level : Nat) (j : Json) (a : α) : Prop :=
  ∀ rest, Within level j.depth (r (j.toTokens ++ rest)) (a, rest)

variable {r : Reader α} {level : Nat} {j : Json} {js : List Json} {a : α} {as : List α}
  {first : Bool} {fuel : Nat} {ts tail : List Token}

/-! ## Values without parts -/

theorem reads_string (level : Nat) (s : String) : Reads Reader.string level (.string s) s :=
  fun _ => .ok level _

theorem reads_bool (level : Nat) (b : Bool) : Reads Reader.bool level (.bool b) b :=
  fun _ => .ok level _

/-- A number of 64 bits is far from the limit of the doubles. -/
theorem ofNat_toNat (n : UInt64) : Numeral.ofNat n.toNat = .natural n.toNat := by
  have hsize : UInt64.size ≤ doubleLimit := by decide +kernel
  rw [Numeral.ofNat, if_neg]
  exact Nat.not_le.mpr (Nat.lt_of_lt_of_le n.toNat_lt_size hsize)

theorem reads_word (level : Nat) (n : UInt64) : Reads Reader.word level (.number n.toNat) n := by
  intro rest
  have heq : Reader.word ((number n.toNat).toTokens ++ rest) = .ok (n, rest) := by
    change Reader.word (.number (.ofNat n.toNat) :: rest) = .ok (n, rest)
    rw [ofNat_toNat, Reader.word, if_pos n.toNat_lt_size, UInt64.ofNat_toNat]
  rw [heq]
  exact .ok level _

theorem Reads.map (h : Reads r level j a) (f : α → β) : Reads (r.map f) level j (f a) := by
  intro rest
  have heq : r.map f (j.toTokens ++ rest) =
      (r (j.toTokens ++ rest)).map fun (a, rest) => (f a, rest) := by
    rw [Reader.map]
    cases r (j.toTokens ++ rest) with
    | error e => rfl
    | ok p => rfl
  rw [heq]
  exact (h rest).map _

theorem reads_null (r : Reader α) (level : Nat) : Reads (Reader.optional r) level .null none :=
  fun _ => .ok level _

theorem Reads.optional (h : Reads r level j a) (hj : j ≠ .null) :
    Reads (Reader.optional r) level j (some a) := by
  intro rest
  have heq : Reader.optional r (j.toTokens ++ rest) = r.map some (j.toTokens ++ rest) := by
    cases j with
    | null => exact absurd rfl hj
    | _ => rfl
  rw [heq]
  exact h.map some rest

/-- A word that is known. -/
theorem reads_choice (level level' : Nat) {find? : String → Option α} {s : String}
    (h : find? s = some a) : Reads (Reader.choice level find?) level' (.string s) a := by
  intro rest
  have heq : Reader.choice level find? (.string (some s) :: rest) = .ok (a, rest) := by
    rw [Reader.choice, h]
  change Within level' 0 (Reader.choice level find? (.string (some s) :: rest)) (a, rest)
  rw [heq]
  exact .ok level' _

/-! ## Arrays -/

/-- Behind the comma stands the item. -/
theorem next_separator (first : Bool) (ts : List Token) :
    Reader.next first (separator first ++ ts) = .ok ts := by
  cases first with
  | false => rfl
  | true => rfl

/-- No value starts with the end of an array. -/
theorem toTokens_append_ne (j : Json) (rest tail : List Token) :
    j.toTokens ++ rest ≠ .closeArray :: tail := by
  cases j <;> simp [toTokens]

/-- One item is read, then those behind it. -/
theorem items_separator (h : ∀ tail, ts ≠ .closeArray :: tail) :
    Reader.items r first (fuel + 1) (separator first ++ ts) = (r ts).bind fun (a, ts) =>
      (Reader.items r false fuel ts).map fun (as, ts) => (a :: as, ts) := by
  rw [Reader.items, next_separator]
  · dsimp only
    cases r ts with
    | error e => rfl
    | ok p =>
        simp only [Except.bind]
        cases Reader.items r false fuel p.2 with
        | error e => rfl
        | ok q => rfl
  · intro tail heq
    cases first with
    | false => cases heq
    | true => exact h tail heq

theorem reads_items (h : List.Forall₂ (Reads r level) js as) (hfuel : js.length < fuel)
    (rest : List Token) : Within level (depthOfItems js)
      (Reader.items r first fuel (itemTokens first js ++ .closeArray :: rest)) (as, rest) := by
  induction h generalizing first fuel with
  | nil =>
      obtain ⟨fuel, rfl⟩ := Nat.exists_eq_add_one_of_ne_zero (Nat.ne_zero_of_lt hfuel)
      exact .ok level _
  | @cons j a js as hj _ ih =>
      obtain ⟨fuel, rfl⟩ := Nat.exists_eq_add_one_of_ne_zero (Nat.ne_zero_of_lt hfuel)
      have hjs := @ih false fuel (Nat.lt_of_succ_lt_succ hfuel)
      rw [itemTokens, List.append_assoc, List.append_assoc,
        items_separator (j.toTokens_append_ne _), depthOfItems]
      exact (hj _).bind (hjs.map _)

theorem length_le_itemTokens (first : Bool) (js : List Json) :
    js.length ≤ (itemTokens first js).length := by
  induction js generalizing first with
  | nil => exact Nat.zero_le _
  | cons j js ih =>
      have hpos : 0 < j.toTokens.length := by
        cases j <;> simp [toTokens]
      have hle := ih false
      simp only [itemTokens, List.length_append, List.length_cons]
      omega

/-- An array is read if its items are read one level below. -/
theorem Reads.list (h : List.Forall₂ (Reads r level) js as) :
    Reads (Reader.list (level + 1) r) (level + 1) (.array js) as := by
  intro rest
  have heq : Reader.list (level + 1) r ((array js).toTokens ++ rest) =
      Reader.items r true ((itemTokens true js ++ .closeArray :: rest).length + 1)
        (itemTokens true js ++ .closeArray :: rest) := by
    simp [toTokens, Reader.list]
  have hlength := length_le_itemTokens true js
  rw [heq]
  apply Within.nested
  apply reads_items h
  rw [List.length_append]
  omega

/-- Where nothing may nest, no array is read. -/
theorem reads_list_zero (r : Reader α) (js : List Json) (as : List α) :
    Reads (Reader.list 0 r) 0 (.array js) as :=
  fun _ => .refused _ _

/-! ## Records -/

/-- These entries fill in a draft, one after the other: each is a field that the draft does
not have yet. -/
inductive Fills (fields : List (Reader.Field σ)) (level : Nat) :
    σ → List (String × Json) → σ → Prop where
  | nil (d : σ) : Fills fields level d [] d
  | cons {d d' d'' : σ} {f : Reader.Field σ} {key : String} {j : Json} {es : List (String × Json)} :
      fields.find? (·.name == key) = some f → f.isSet d = false → Reads (f.read d) level j d' →
        Fills fields level d' es d'' → Fills fields level d ((key, j) :: es) d''

variable {fields : List (Reader.Field σ)} {d d' d'' : σ} {es es' : List (String × Json)}
  {key : String}

/-- One entry is read, then those behind it. -/
theorem entries_separator {f : Reader.Field σ} (hf : fields.find? (·.name == key) = some f)
    (hnew : f.isSet d = false) (ts : List Token) :
    Reader.entries fields first (fuel + 1) d
        (separator first ++ .string (some key) :: .colon :: ts) =
      (f.read d ts).bind fun (d, ts) => Reader.entries fields false fuel d ts := by
  rw [Reader.entries, next_separator]
  · simp only [Reader.entry, hf, hnew, Bool.false_eq_true, if_false]
    cases f.read d ts with
    | error e => rfl
    | ok p => rfl
  · intro tail heq
    cases first with
    | false => cases heq
    | true => cases heq

theorem Fills.reads (h : Fills fields level d es d') (hfuel : es.length < fuel)
    (rest : List Token) : Within level (depthOfEntries es)
      (Reader.entries fields first fuel d (entryTokens first es ++ .closeObject :: rest))
      (d', rest) := by
  induction h generalizing first fuel with
  | nil =>
      obtain ⟨fuel, rfl⟩ := Nat.exists_eq_add_one_of_ne_zero (Nat.ne_zero_of_lt hfuel)
      exact .ok level _
  | @cons d d' d'' f key j es hf hnew hread _ ih =>
      obtain ⟨fuel, rfl⟩ := Nat.exists_eq_add_one_of_ne_zero (Nat.ne_zero_of_lt hfuel)
      have hes := @ih false fuel (Nat.lt_of_succ_lt_succ hfuel)
      have htokens : entryTokens first ((key, j) :: es) ++ .closeObject :: rest =
          separator first ++ .string (some key) :: .colon ::
            (j.toTokens ++ (entryTokens false es ++ .closeObject :: rest)) := by
        simp [entryTokens]
      rw [htokens, entries_separator hf hnew, depthOfEntries]
      exact (hread _).bind hes

theorem length_le_entryTokens (first : Bool) (es : List (String × Json)) :
    es.length ≤ (entryTokens first es).length := by
  induction es generalizing first with
  | nil => exact Nat.zero_le _
  | cons e es ih =>
      have hle := ih false
      simp only [entryTokens, List.length_append, List.length_cons]
      omega

/-- A record is read if its entries are read one level below and the draft that they fill in
has all that is needed. -/
theorem Fills.record {r : Reader.Record σ α} (h : Fills r.fields level r.draft es d)
    (hfinish : r.finish d = some a) :
    Reads (Reader.record (level + 1) r) (level + 1) (.object es) a := by
  intro rest
  have heq : Reader.record (level + 1) r ((object es).toTokens ++ rest) = Reader.finished r
      (Reader.entries r.fields true ((entryTokens true es ++ .closeObject :: rest).length + 1)
        r.draft (entryTokens true es ++ .closeObject :: rest)) := by
    simp [toTokens, Reader.record]
  have hentries : Within level (depthOfEntries es)
      (Reader.entries r.fields true ((entryTokens true es ++ .closeObject :: rest).length + 1)
        r.draft (entryTokens true es ++ .closeObject :: rest)) (d, rest) := by
    have hlength := length_le_entryTokens true es
    apply h.reads
    rw [List.length_append]
    omega
  rw [heq]
  apply Within.nested
  constructor
  · intro hd
    rw [hentries.fits hd]
    simp [Reader.finished, hfinish]
  · intro hd
    rw [hentries.deep hd]
    rfl

/-- Where nothing may nest, no record is read. -/
theorem reads_record_zero (r : Reader.Record σ α) (es : List (String × Json)) (a : α) :
    Reads (Reader.record 0 r) 0 (.object es) a :=
  fun _ => .refused _ _

/-! ## Whole texts -/

theorem Reads.parse (h : Reads r level j a) : Within level j.depth (Json.parse r j.compact) a := by
  have htokens : tokens j.compact.toList = j.toTokens ++ [] := by
    rw [compact, String.toList_ofList, tokens_spell, List.append_nil]
  constructor
  · intro hd
    rw [Json.parse, htokens, (h []).fits hd]
  · intro hd
    rw [Json.parse, htokens, (h []).deep hd]

end LeasedLocks.Json
