/-
JSON texts, their values, and a reader.

`Derives part t v r` says that the text `t` begins with a rendering of `v` as a `part` of a document, and that `r` is what
follows it. White space may stand before every token. The grammar is that of JSON without fractions, exponents, signs and
escapes, and numbers are below `2 ^ 64`. A list of items and a list of fields are given as the array and the object they
make.

- `read_of_derives`: the reader returns what the grammar derives, so a text has one value.
- `Reads`: what is asked of any reader of JSON. Readers differ in the order of the fields that they return, in what they do
  where a key comes twice, and in how deep they go; nothing is asked of that.
-/
import Mathlib.Tactic

namespace Queso

inductive Json where
  | null
  | bool (b : Bool)
  | num (n : ℕ)
  | str (s : List Char)
  | arr (items : List Json)
  | obj (fields : List (List Char × Json))

namespace Json

/-! ## Looking inside a value -/

/-- the field of an object, and `null` where there is none; of equal keys the last one counts -/
def get (key : List Char) : Json → Json
  | obj fields => ((fields.reverse.find? fun f => f.1 = key).map Prod.snd).getD null
  | _ => null

def asU64 : Json → Option ℕ
  | num n => if n < 2 ^ 64 then some n else none
  | _ => none

def asStr : Json → Option (List Char)
  | str s => some s
  | _ => none

def asArray : Json → Option (List Json)
  | arr items => some items
  | _ => none

theorem get_last (key : List Char) (v : Json) (fields : List (List Char × Json)) :
    (obj (fields ++ [(key, v)])).get key = v := by
  simp [get]

/-- a later field with another key is passed over -/
theorem get_before {key key' : List Char} (hne : key' ≠ key) (v : Json) (fields : List (List Char × Json)) :
    (obj (fields ++ [(key', v)])).get key = (obj fields).get key := by
  simp [get, hne]

/-- the same value: fields with the same keys and values, in any order -/
inductive Same : Json → Json → Prop where
  | refl (v : Json) : Same v v
  | arr {items items' : List Json} (h : List.Forall₂ Same items items') : Same (arr items) (arr items')
  | obj {fields fields' : List (List Char × Json)} (h : ∀ key, Same ((obj fields).get key) ((obj fields').get key)) :
      Same (obj fields) (obj fields')

section Same

variable {v w : Json}

theorem Same.get (h : Same v w) (key : List Char) : Same (v.get key) (w.get key) := by
  cases h with
  | refl => exact .refl _
  | arr h => exact .refl _
  | obj h => exact h key

theorem Same.asU64 (h : Same v w) : v.asU64 = w.asU64 := by cases h <;> rfl

theorem Same.asStr (h : Same v w) : v.asStr = w.asStr := by cases h <;> rfl

/-- what is read off the items of an array does not depend on the order of fields either -/
theorem Same.filterMap {α : Type} {f : Json → Option α} (hf : ∀ v w, Same v w → f v = f w) (h : Same v w) :
    v.asArray.map (List.filterMap f) = w.asArray.map (List.filterMap f) := by
  cases h with
  | refl => rfl
  | obj h => rfl
  | arr h =>
    refine congrArg some ?_
    induction h with
    | nil => rfl
    | cons hv _ ih => rw [List.filterMap_cons, List.filterMap_cons, hf _ _ hv, ih]

end Same

/-! ## The grammar -/

def isSpace (c : Char) : Bool := c = ' ' || c = '\n' || c = '\r' || c = '\t'

/-- a character that stands for itself in a string -/
def isPlain (c : Char) : Bool := c ≠ '"' && c ≠ '\\' && decide (32 ≤ c.toNat)

inductive Part where
  | value
  /-- the items of an array, up to its bracket -/
  | items
  /-- further items, each after a comma -/
  | moreItems
  /-- the fields of an object, up to its brace -/
  | fields
  | moreFields

inductive Derives : Part → List Char → Json → List Char → Prop where
  | space {part : Part} {c : Char} {t r : List Char} {v : Json} (hc : isSpace c = true) (h : Derives part t v r) :
      Derives part (c :: t) v r
  | null (r : List Char) : Derives .value ('n' :: 'u' :: 'l' :: 'l' :: r) .null r
  | true (r : List Char) : Derives .value ('t' :: 'r' :: 'u' :: 'e' :: r) (.bool true) r
  | false (r : List Char) : Derives .value ('f' :: 'a' :: 'l' :: 's' :: 'e' :: r) (.bool false) r
  | num (n : ℕ) (hn : n < 2 ^ 64) (r : List Char) (hr : ∀ c ∈ r.head?, c.isDigit = false) :
      Derives .value (Nat.toDigits 10 n ++ r) (.num n) r
  | str (s : List Char) (hs : ∀ c ∈ s, isPlain c = true) (r : List Char) :
      Derives .value ('"' :: (s ++ '"' :: r)) (.str s) r
  | arr {t r : List Char} {items : List Json} (h : Derives .items t (.arr items) r) :
      Derives .value ('[' :: t) (.arr items) r
  | obj {t r : List Char} {fields : List (List Char × Json)} (h : Derives .fields t (.obj fields) r) :
      Derives .value ('\x7b' :: t) (.obj fields) r
  | noItems (r : List Char) : Derives .items (']' :: r) (.arr []) r
  | items {t r r' : List Char} {v : Json} {items : List Json} (h : Derives .value t v r)
      (hmore : Derives .moreItems r (.arr items) r') : Derives .items t (.arr (v :: items)) r'
  | itemsEnd (r : List Char) : Derives .moreItems (']' :: r) (.arr []) r
  | nextItem {t r r' : List Char} {v : Json} {items : List Json} (h : Derives .value t v r)
      (hmore : Derives .moreItems r (.arr items) r') : Derives .moreItems (',' :: t) (.arr (v :: items)) r'
  | noFields (r : List Char) : Derives .fields ('\x7d' :: r) (.obj []) r
  | fields {t u r r' : List Char} {key : List Char} {v : Json} {fields : List (List Char × Json)}
      (hkey : Derives .value t (.str key) (':' :: u)) (h : Derives .value u v r)
      (hmore : Derives .moreFields r (.obj fields) r') : Derives .fields t (.obj ((key, v) :: fields)) r'
  | fieldsEnd (r : List Char) : Derives .moreFields ('\x7d' :: r) (.obj []) r
  | nextField {t u r r' : List Char} {key : List Char} {v : Json} {fields : List (List Char × Json)}
      (hkey : Derives .value t (.str key) (':' :: u)) (h : Derives .value u v r)
      (hmore : Derives .moreFields r (.obj fields) r') : Derives .moreFields (',' :: t) (.obj ((key, v) :: fields)) r'

/-- `t` is a document with value `v` -/
def Document (t : List Char) (v : Json) : Prop := ∃ r, Derives .value t v r ∧ ∀ c ∈ r, isSpace c = true

/-- no object has a key twice, and arrays and objects are at most `depth` deep -/
inductive Regular : ℕ → Json → Prop where
  | null (depth : ℕ) : Regular depth null
  | bool (depth : ℕ) (b : Bool) : Regular depth (bool b)
  | num (depth n : ℕ) : Regular depth (num n)
  | str (depth : ℕ) (s : List Char) : Regular depth (str s)
  | arr {depth : ℕ} {items : List Json} (h : ∀ v ∈ items, Regular depth v) : Regular (depth + 1) (arr items)
  | obj {depth : ℕ} {fields : List (List Char × Json)} (hkeys : (fields.map Prod.fst).Nodup)
      (h : ∀ f ∈ fields, Regular depth f.2) : Regular (depth + 1) (obj fields)

/-- how deep a reader goes at least -/
def MAX_DEPTH : ℕ := 127

/-- a reader returns the value of every document that is not too deep and has no key twice -/
def Reads (read : List Char → Option Json) : Prop :=
  ∀ t v, Document t v → Regular MAX_DEPTH v → ∃ w, read t = some w ∧ Same v w

/-! ## A reader -/

def skip (t : List Char) : List Char := t.dropWhile isSpace

/-- an item before the rest of an array -/
def consItem (v : Json) : Json → Json
  | arr items => arr (v :: items)
  | w => w

/-- a field before the rest of an object -/
def consField (key v : Json) : Json → Json
  | obj fields => obj (((asStr key).getD [], v) :: fields)
  | w => w

/-- a value that begins with `c`, which is neither a bracket nor a brace -/
def readToken (c : Char) (t : List Char) : Option (Json × List Char) :=
  if c.isDigit then
    some (num (Nat.ofDigitChars 10 (c :: t.takeWhile Char.isDigit) 0), t.dropWhile Char.isDigit)
  else if c = '"' then
    match t.dropWhile isPlain with
    | '"' :: r => some (str (t.takeWhile isPlain), r)
    | _ => none
  else if c = 'n' then
    match t with
    | 'u' :: 'l' :: 'l' :: r => some (null, r)
    | _ => none
  else if c = 't' then
    match t with
    | 'r' :: 'u' :: 'e' :: r => some (bool true, r)
    | _ => none
  else if c = 'f' then
    match t with
    | 'a' :: 'l' :: 's' :: 'e' :: r => some (bool false, r)
    | _ => none
  else none

/-- what follows the colon after a key -/
def colon : List Char → Option (List Char)
  | ':' :: u => some u
  | _ => none

/-- the reader; each part is read within `fuel` calls or not at all -/
def read : ℕ → Part → List Char → Option (Json × List Char)
  | 0, _, _ => none
  | fuel + 1, .value, t =>
    match skip t with
    | [] => none
    | c :: u => if c = '[' then read fuel .items u else if c = '\x7b' then read fuel .fields u else readToken c u
  | fuel + 1, .items, t =>
    match skip t with
    | [] => none
    | c :: u =>
      if c = ']' then some (arr [], u)
      else (read fuel .value (c :: u)).bind fun p =>
        (read fuel .moreItems p.2).map fun q => (consItem p.1 q.1, q.2)
  | fuel + 1, .moreItems, t =>
    match skip t with
    | [] => none
    | c :: u =>
      if c = ']' then some (arr [], u)
      else if c = ',' then (read fuel .value u).bind fun p =>
        (read fuel .moreItems p.2).map fun q => (consItem p.1 q.1, q.2)
      else none
  | fuel + 1, .fields, t =>
    match skip t with
    | [] => none
    | c :: u =>
      if c = '\x7d' then some (obj [], u)
      else (read fuel .value (c :: u)).bind fun k => (colon k.2).bind fun u => (read fuel .value u).bind fun p =>
        (read fuel .moreFields p.2).map fun q => (consField k.1 p.1 q.1, q.2)
  | fuel + 1, .moreFields, t =>
    match skip t with
    | [] => none
    | c :: u =>
      if c = '\x7d' then some (obj [], u)
      else if c = ',' then (read fuel .value u).bind fun k => (colon k.2).bind fun u => (read fuel .value u).bind fun p =>
        (read fuel .moreFields p.2).map fun q => (consField k.1 p.1 q.1, q.2)
      else none

/-- the value of a document -/
def readDocument (t : List Char) : Option Json :=
  (read (2 * t.length) .value t).bind fun p => if p.2.all isSpace then some p.1 else none

theorem skip_space {c : Char} (hc : isSpace c = true) (t : List Char) : skip (c :: t) = skip t := by
  simp [skip, hc]

theorem skip_of_not {c : Char} (hc : isSpace c = false) (t : List Char) : skip (c :: t) = c :: t := by
  simp [skip, hc]

theorem skip_skip (t : List Char) : skip (skip t) = skip t := by
  induction t with
  | nil => rfl
  | cons c t ih =>
    cases hc : isSpace c with
    | true => rw [skip_space hc, ih]
    | false => rw [skip_of_not hc, skip_of_not hc]

theorem read_space {c : Char} (hc : isSpace c = true) (fuel : ℕ) (part : Part) (t : List Char) :
    read fuel part (c :: t) = read fuel part t := by
  cases fuel with
  | zero => rfl
  | succ fuel => cases part <;> simp only [read, skip_space hc]

theorem read_skip (fuel : ℕ) (part : Part) (t : List Char) : read fuel part (skip t) = read fuel part t := by
  cases fuel with
  | zero => rfl
  | succ fuel => cases part <;> simp only [read, skip_skip]

theorem derives_shorter {part : Part} {t r : List Char} {v : Json} (h : Derives part t v r) : r.length < t.length := by
  induction h with
  | space hc h ih => simp; omega
  | null r => simp; omega
  | true r => simp; omega
  | false r => simp; omega
  | num n hn r hr =>
    have : 0 < (Nat.toDigits 10 n).length := List.length_pos_of_ne_nil Nat.toDigits_ne_nil
    simp
    omega
  | str s hs r => simp; omega
  | arr h ih => simp; omega
  | obj h ih => simp; omega
  | noItems r => simp
  | items h hmore ih ihm => omega
  | itemsEnd r => simp
  | nextItem h hmore ih ihm => simp; omega
  | noFields r => simp
  | fields hkey h hmore ihk ih ihm => simp at ihk; omega
  | fieldsEnd r => simp
  | nextField hkey h hmore ihk ih ihm => simp at ihk ⊢; omega

/-- a value begins with neither a closing bracket nor a closing brace -/
theorem value_start {fuel : ℕ} {t : List Char} {p : Json × List Char} (h : read fuel .value t = some p) :
    ∃ c u, skip t = c :: u ∧ c ≠ ']' ∧ c ≠ '\x7d' ∧ read fuel .value (c :: u) = some p := by
  cases hs : skip t with
  | nil =>
    cases fuel with
    | zero => cases h
    | succ fuel => rw [read, hs] at h; cases h
  | cons c u =>
    have hsame : read fuel .value (c :: u) = some p := by
      rw [← hs, read_skip]
      exact h
    refine ⟨c, u, rfl, ?_, ?_, hsame⟩
    · rintro rfl
      cases fuel with
      | zero => cases h
      | succ fuel => rw [read, hs] at h; exact absurd h (by simp [readToken])
    · rintro rfl
      cases fuel with
      | zero => cases h
      | succ fuel => rw [read, hs] at h; exact absurd h (by simp [readToken])

theorem takeWhile_append {p : Char → Bool} {s r : List Char} (hs : ∀ c ∈ s, p c = true)
    (hr : ∀ c ∈ r.head?, p c = false) : (s ++ r).takeWhile p = s ∧ (s ++ r).dropWhile p = r := by
  rw [List.takeWhile_append_of_pos hs, List.dropWhile_append_of_pos hs]
  cases r with
  | nil => simp
  | cons c r => simp [hr c rfl]

/-- a number is read as far as its digits go -/
theorem readToken_num (n : ℕ) {r : List Char} (hr : ∀ c ∈ r.head?, c.isDigit = false) :
    ∃ c u, Nat.toDigits 10 n ++ r = c :: u ∧ c.isDigit = true ∧ readToken c u = some (num n, r) := by
  have hdigits : ∀ c ∈ Nat.toDigits 10 n, c.isDigit = true := fun c hc =>
    Nat.isDigit_of_mem_toDigits (by decide) (by decide) hc
  have hvalue := Nat.ofDigitChars_ten_toDigits (n := n)
  cases hd : Nat.toDigits 10 n with
  | nil => exact absurd hd Nat.toDigits_ne_nil
  | cons c ds =>
    rw [hd] at hdigits hvalue
    have hc := hdigits c List.mem_cons_self
    obtain ⟨htake, hdrop⟩ := takeWhile_append (fun x hx => hdigits x (List.mem_cons_of_mem _ hx)) hr
    refine ⟨c, ds ++ r, rfl, hc, ?_⟩
    unfold readToken
    rw [if_pos hc, htake, hdrop, hvalue]

theorem readToken_str {s : List Char} (hs : ∀ c ∈ s, isPlain c = true) (r : List Char) :
    readToken '"' (s ++ '"' :: r) = some (str s, r) := by
  obtain ⟨htake, hdrop⟩ := takeWhile_append (r := '"' :: r) hs (by simp [isPlain])
  unfold readToken
  rw [if_neg (by decide), if_pos rfl, htake, hdrop]
  rfl

theorem isSpace_of_isDigit {c : Char} (hc : c.isDigit = true) : isSpace c = false := by
  by_contra h
  have hs : isSpace c = true := by simpa using h
  simp only [isSpace, Bool.or_eq_true, decide_eq_true_eq] at hs
  rcases hs with ((rfl | rfl) | rfl) | rfl <;> exact absurd hc (by decide)

/-- the calls that reading a part of `t` takes at most -/
def cost : Part → List Char → ℕ
  | .value, t => 2 * t.length
  | _, t => 2 * t.length + 1

/-- reading a part takes a call -/
theorem exists_succ_of_cost {part : Part} {c : Char} {t : List Char} {fuel : ℕ} (h : cost part (c :: t) ≤ fuel) :
    ∃ left, fuel = left + 1 := by
  have hpos : 0 < cost part (c :: t) := by cases part <;> simp [cost]
  exact Nat.exists_eq_add_one.2 (hpos.trans_le h)

/-- **The reader reads what the grammar derives.** -/
theorem read_of_derives {part : Part} {t r : List Char} {v : Json} (h : Derives part t v r) :
    ∀ fuel, cost part t ≤ fuel → read fuel part t = some (v, r) := by
  induction h with
  | @space part c t r v hc h ih =>
    intro fuel hf
    rw [read_space hc]
    apply ih
    have hmore : cost part t ≤ cost part (c :: t) := by cases part <;> simp [cost]
    exact hmore.trans hf
  | null r =>
    intro fuel hf
    obtain ⟨fuel, rfl⟩ := exists_succ_of_cost hf
    rfl
  | true r =>
    intro fuel hf
    obtain ⟨fuel, rfl⟩ := exists_succ_of_cost hf
    rfl
  | false r =>
    intro fuel hf
    obtain ⟨fuel, rfl⟩ := exists_succ_of_cost hf
    rfl
  | num n hn r hr =>
    intro fuel hf
    obtain ⟨c, u, htext, hc, htoken⟩ := readToken_num n hr
    rw [htext] at hf ⊢
    obtain ⟨fuel, rfl⟩ := exists_succ_of_cost hf
    have hne : ∀ d : Char, d.isDigit = false → c ≠ d := by
      rintro d hd rfl
      rw [hc] at hd
      cases hd
    rw [read, skip_of_not (isSpace_of_isDigit hc)]
    dsimp only
    rw [if_neg (hne _ (by decide)), if_neg (hne _ (by decide)), htoken]
  | str s hs r =>
    intro fuel hf
    obtain ⟨fuel, rfl⟩ := exists_succ_of_cost hf
    rw [read, skip_of_not (by decide)]
    exact readToken_str hs r
  | arr h ih =>
    intro fuel hf
    obtain ⟨fuel, rfl⟩ := exists_succ_of_cost hf
    rw [read, skip_of_not (by decide)]
    exact ih fuel (by simp [cost] at hf ⊢; omega)
  | obj h ih =>
    intro fuel hf
    obtain ⟨fuel, rfl⟩ := exists_succ_of_cost hf
    rw [read, skip_of_not (by decide)]
    exact ih fuel (by simp [cost] at hf ⊢; omega)
  | noItems r =>
    intro fuel hf
    obtain ⟨fuel, rfl⟩ := exists_succ_of_cost hf
    rw [read, skip_of_not (by decide)]
    rfl
  | items h hmore ih ihm =>
    intro fuel hf
    obtain ⟨fuel, rfl⟩ := Nat.exists_eq_succ_of_ne_zero (n := fuel) (by simp [cost] at hf; omega)
    have hlt := derives_shorter h
    simp only [cost] at hf
    obtain ⟨c, u, hskip, hc, -, hitem⟩ := value_start (ih fuel (by simp [cost]; omega))
    have hrest := ihm fuel (by simp [cost]; omega)
    rw [read, hskip]
    dsimp only
    rw [if_neg hc, hitem]
    simp [hrest, consItem]
  | itemsEnd r =>
    intro fuel hf
    obtain ⟨fuel, rfl⟩ := exists_succ_of_cost hf
    rw [read, skip_of_not (by decide)]
    rfl
  | nextItem h hmore ih ihm =>
    intro fuel hf
    obtain ⟨fuel, rfl⟩ := exists_succ_of_cost hf
    have hlt := derives_shorter h
    simp only [cost, List.length_cons] at hf
    have hitem := ih fuel (by simp [cost]; omega)
    have hrest := ihm fuel (by simp [cost]; omega)
    rw [read, skip_of_not (by decide)]
    dsimp only
    rw [if_neg (by decide), if_pos rfl, hitem]
    simp [hrest, consItem]
  | noFields r =>
    intro fuel hf
    obtain ⟨fuel, rfl⟩ := exists_succ_of_cost hf
    rw [read, skip_of_not (by decide)]
    rfl
  | fields hkey h hmore ihk ih ihm =>
    intro fuel hf
    obtain ⟨fuel, rfl⟩ := Nat.exists_eq_succ_of_ne_zero (n := fuel) (by simp [cost] at hf; omega)
    have hltk := derives_shorter hkey
    have hlt := derives_shorter h
    simp only [cost, List.length_cons] at hf hltk
    obtain ⟨c, u, hskip, -, hc, hfirst⟩ := value_start (ihk fuel (by simp [cost]; omega))
    have hfield := ih fuel (by simp [cost]; omega)
    have hrest := ihm fuel (by simp [cost]; omega)
    rw [read, hskip]
    dsimp only
    rw [if_neg hc, hfirst]
    simp [colon, hfield, hrest, consField, asStr]
  | fieldsEnd r =>
    intro fuel hf
    obtain ⟨fuel, rfl⟩ := exists_succ_of_cost hf
    rw [read, skip_of_not (by decide)]
    rfl
  | nextField hkey h hmore ihk ih ihm =>
    intro fuel hf
    obtain ⟨fuel, rfl⟩ := exists_succ_of_cost hf
    have hltk := derives_shorter hkey
    have hlt := derives_shorter h
    simp only [cost, List.length_cons] at hf hltk
    have hfirst := ihk fuel (by simp [cost]; omega)
    have hfield := ih fuel (by simp [cost]; omega)
    have hrest := ihm fuel (by simp [cost]; omega)
    rw [read, skip_of_not (by decide)]
    dsimp only
    rw [if_neg (by decide), if_pos rfl, hfirst]
    simp [colon, hfield, hrest, consField, asStr]

/-- the reader of documents reads JSON -/
theorem readDocument_reads : Reads readDocument := by
  intro t v h _
  obtain ⟨r, hd, hr⟩ := h
  have hread := read_of_derives hd (2 * t.length) le_rfl
  refine ⟨v, ?_, .refl v⟩
  unfold readDocument
  rw [hread, Option.bind_some]
  exact if_pos (List.all_eq_true.2 hr)

end Json

end Queso
