/-
The report of a node's chain: the text it serves and the parser on the other side.

Hashes travel as hexadecimal strings of sixteen digits. The reader of JSON is a parameter; all that is asked of it is that
it reads JSON (`Json.Reads`).

`parseChain_toJson`: the parser returns the frontier and the table that the text was written from.
-/
import Queso.Chain.Checkpoints
import Queso.Lib.Json

namespace Queso.Chain

/-! ## Hashes as text -/

/-- the last `width` hexadecimal digits -/
def hexDigits : ℕ → ℕ → List Char
  | 0, _ => []
  | width + 1, x => hexDigits width (x / 16) ++ [Nat.digitChar (x % 16)]

/-- a hash as it is written: the prefix and sixteen digits -/
def hex (h : BlockHash) : List Char := '0' :: 'x' :: hexDigits 16 h.toNat

/-- `to_digit(16)` -/
def toDigit (c : Char) : Option ℕ :=
  if c.isDigit then some (c.toNat - '0'.toNat)
  else if 'a' ≤ c ∧ c ≤ 'f' then some (c.toNat - 'a'.toNat + 10)
  else if 'A' ≤ c ∧ c ≤ 'F' then some (c.toNat - 'A'.toNat + 10)
  else none

/-- one digit more; an overflow is an error -/
def addDigit (acc : ℕ) (c : Char) : Option ℕ :=
  (toDigit c).bind fun d => if acc * 16 + d < 2 ^ 64 then some (acc * 16 + d) else none

/-- `u64::from_str_radix(text, 16)` -/
def fromStrRadix16 : List Char → Option ℕ
  | [] => none
  | c :: t => if c = '+' then (if t = [] then none else t.foldlM addDigit 0) else (c :: t).foldlM addDigit 0

/-- `strip_prefix` -/
def stripPrefix (pre text : List Char) : Option (List Char) :=
  if pre.isPrefixOf text then some (text.drop pre.length) else none

def parseHash (value : Json) : Option BlockHash :=
  value.asStr.bind fun text =>
    (fromStrRadix16 ((stripPrefix ['0', 'x'] text).getD text)).map fun h => UInt64.ofNat h

theorem toDigit_digitChar : ∀ d < 16, toDigit (Nat.digitChar d) = some d := by decide

theorem foldlM_hexDigits (width x : ℕ) (hx : x < 16 ^ width) (hw : width ≤ 16) :
    (hexDigits width x).foldlM addDigit 0 = some x := by
  induction width generalizing x with
  | zero =>
    have : x = 0 := by simpa using hx
    rw [this]
    rfl
  | succ width ih =>
    have hdiv : x / 16 < 16 ^ width := Nat.div_lt_of_lt_mul (by rw [← Nat.pow_succ']; exact hx)
    have hbound : x < 2 ^ 64 := hx.trans_le ((Nat.pow_le_pow_right (by decide) hw).trans (by decide))
    have hdigit : addDigit (x / 16) (Nat.digitChar (x % 16)) = some x := by
      have hsum : x / 16 * 16 + x % 16 = x := by omega
      unfold addDigit
      rw [toDigit_digitChar _ (Nat.mod_lt _ (by decide)), Option.bind_some, hsum, if_pos hbound]
    rw [hexDigits, List.foldlM_append, ih _ hdiv (by omega)]
    simp [hdigit]

theorem mem_hexDigits {width x : ℕ} {c : Char} (h : c ∈ hexDigits width x) : ∃ d < 16, c = Nat.digitChar d := by
  induction width generalizing x with
  | zero => cases h
  | succ width ih =>
    rw [hexDigits, List.mem_append, List.mem_singleton] at h
    rcases h with h | h
    · exact ih h
    · exact ⟨_, Nat.mod_lt _ (by decide), h⟩

theorem hexDigits_length (width x : ℕ) : (hexDigits width x).length = width := by
  induction width generalizing x with
  | zero => rfl
  | succ width ih => rw [hexDigits, List.length_append, ih, List.length_singleton]

/-- the parser returns the hash that was written, over the whole range -/
theorem parseHash_hex (h : BlockHash) : parseHash (.str (hex h)) = some h := by
  have hlt : h.toNat < 16 ^ 16 := h.toNat_lt
  have hfold := foldlM_hexDigits 16 h.toNat hlt le_rfl
  have hstrip : stripPrefix ['0', 'x'] (hex h) = some (hexDigits 16 h.toNat) := by
    simp [stripPrefix, hex]
  have hradix : fromStrRadix16 (hexDigits 16 h.toNat) = some h.toNat := by
    cases hd : hexDigits 16 h.toNat with
    | nil =>
      have hlen := hexDigits_length 16 h.toNat
      rw [hd] at hlen
      cases hlen
    | cons c t =>
      have hc : c ≠ '+' := by
        obtain ⟨d, hd16, rfl⟩ := mem_hexDigits (c := c) (by rw [hd]; exact List.mem_cons_self)
        exact Nat.digitChar_ne '+' (by decide)
      rw [fromStrRadix16, if_neg hc, ← hd]
      exact hfold
  unfold parseHash Json.asStr
  rw [Option.bind_some, hstrip, Option.getD_some, hradix, Option.map_some, UInt64.ofNat_toNat]

/-! ## The report -/

def decimal (n : ℕ) : List Char := Nat.toDigits 10 n

def renderState (state : ChainState) : List Char :=
  "\x7b \"n\": ".toList ++ decimal state.n ++ ", \"h\": \"".toList ++ hex state.h ++ "\" \x7d".toList

/-- the entries of the table, each on a line of its own; the first follows no comma -/
def renderEntries : List ChainState → List Char
  | [] => []
  | first :: rest =>
    "\n    ".toList ++ renderState first ++ (rest.flatMap fun state => ",\n    ".toList ++ renderState state) ++
      "\n  ".toList

/-- `GET /chain` -/
def ChainCheckpoints.toJson (sink : ChainCheckpoints) : List Char :=
  "\x7b\n".toList ++
  "  \"checkpoint_every\": ".toList ++ decimal sink.every ++ ",\n".toList ++
  "  \"frontier\": ".toList ++ renderState sink.published.frontier ++ ",\n".toList ++
  "  \"truncated\": ".toList ++ (if sink.published.truncated then "true".toList else "false".toList) ++ ",\n".toList ++
  "  \"checkpoints\": [".toList ++ renderEntries sink.published.table ++ "]\n\x7d\n".toList

structure ChainReport where
  frontier : ChainState
  checkpoints : List ChainState
deriving DecidableEq

def parseState (entry : Json) : Option ChainState :=
  (entry.get "n".toList).asU64.bind fun n => (parseHash (entry.get "h".toList)).map fun h => ⟨n, h⟩

/-- `parse_chain` with the reader `fromStr`; an entry that is no chain state is passed over -/
def parseChain (fromStr : List Char → Option Json) (body : List Char) : Option ChainReport :=
  (fromStr body).bind fun json =>
    (parseState (json.get "frontier".toList)).bind fun frontier =>
      (json.get "checkpoints".toList).asArray.map fun entries => ⟨frontier, entries.filterMap parseState⟩

/-! ### What the text says -/

open Json

def stateJson (state : ChainState) : Json := obj [("n".toList, num state.n), ("h".toList, str (hex state.h))]

def reportJson (sink : ChainCheckpoints) : Json :=
  obj [("checkpoint_every".toList, num sink.every), ("frontier".toList, stateJson sink.published.frontier),
    ("truncated".toList, bool sink.published.truncated),
    ("checkpoints".toList, arr (sink.published.table.map stateJson))]

theorem parseState_stateJson {state : ChainState} (hn : state.n < 2 ^ 64) : parseState (stateJson state) = some state := by
  have hnum : (stateJson state).get "n".toList = num state.n := by simp [stateJson, Json.get]
  have hhash : (stateJson state).get "h".toList = str (hex state.h) := by simp [stateJson, Json.get]
  unfold parseState
  rw [hnum, hhash, parseHash_hex, asU64, if_pos hn]
  rfl

/-- a state is parsed alike in whatever order its fields are -/
theorem parseState_same {v w : Json} (h : Same v w) : parseState v = parseState w := by
  unfold parseState parseHash
  rw [(h.get _).asU64, (h.get _).asStr]

theorem isPlain_hex (h : BlockHash) : ∀ c ∈ hex h, isPlain c = true := by
  have hdigit : ∀ d < 16, isPlain (Nat.digitChar d) = true := by decide
  intro c hc
  rcases List.mem_cons.1 hc with rfl | hc
  · decide
  rcases List.mem_cons.1 hc with rfl | hc
  · decide
  obtain ⟨d, hd, rfl⟩ := mem_hexDigits hc
  exact hdigit d hd

/-- a key and its colon -/
theorem derives_key (key : List Char) (hkey : ∀ c ∈ key, isPlain c = true) (u : List Char) :
    Derives .value ('"' :: (key ++ '"' :: ':' :: u)) (str key) (':' :: u) :=
  .str key hkey (':' :: u)

/-- a number and the comma after it -/
theorem derives_num {n : ℕ} (hn : n < 2 ^ 64) (r : List Char) : Derives .value (decimal n ++ ',' :: r) (num n) (',' :: r) := by
  apply Derives.num n hn
  intro c hc
  obtain rfl := Option.some.inj hc
  rfl

theorem derives_state {state : ChainState} (hn : state.n < 2 ^ 64) (r : List Char) :
    Derives .value (renderState state ++ r) (stateJson state) r := by
  have htext : renderState state ++ r = '\x7b' :: ' ' :: '"' :: ("n".toList ++ '"' :: ':' :: ' ' :: (decimal state.n ++
      ',' :: ' ' :: '"' :: ("h".toList ++ '"' :: ':' :: ' ' :: '"' :: (hex state.h ++ '"' :: ' ' :: '\x7d' :: r)))) := by
    unfold renderState
    generalize hex state.h = digits
    simp
  have hplain := isPlain_hex state.h
  rw [htext]
  unfold stateJson
  generalize hex state.h = digits at hplain ⊢
  have hvalue : Derives .value (' ' :: '"' :: (digits ++ '"' :: ' ' :: '\x7d' :: r)) (str digits) (' ' :: '\x7d' :: r) :=
    .space rfl (.str _ hplain _)
  have hkey : Derives .value (' ' :: '"' :: ("h".toList ++ '"' :: ':' :: ' ' :: '"' :: (digits ++ '"' :: ' ' :: '\x7d' :: r)))
      (str "h".toList) (':' :: ' ' :: '"' :: (digits ++ '"' :: ' ' :: '\x7d' :: r)) :=
    .space rfl (derives_key _ (by simp [isPlain]) _)
  have hend : Derives .moreFields (' ' :: '\x7d' :: r) (obj []) r := .space rfl (.fieldsEnd r)
  have hhash := Derives.nextField hkey hvalue hend
  exact .obj (.space rfl (.fields (derives_key _ (by simp [isPlain]) _) (.space rfl (derives_num hn _)) hhash))

/-- the entries of the table, up to the closing bracket -/
theorem derives_more {table : List ChainState} (hn : ∀ state ∈ table, state.n < 2 ^ 64) (r : List Char) :
    Derives .moreItems ((table.flatMap fun state => ",\n    ".toList ++ renderState state) ++ "\n  ".toList ++ ']' :: r)
      (arr (table.map stateJson)) r := by
  induction table with
  | nil => exact .space rfl (.space rfl (.space rfl (.itemsEnd r)))
  | cons state table ih =>
    have hrest := ih fun s hs => hn s (List.mem_cons_of_mem _ hs)
    have htext : ((state :: table).flatMap fun state => ",\n    ".toList ++ renderState state) ++ "\n  ".toList ++ ']' :: r =
        ',' :: '\n' :: ' ' :: ' ' :: ' ' :: ' ' :: (renderState state ++
          ((table.flatMap fun state => ",\n    ".toList ++ renderState state) ++ "\n  ".toList ++ ']' :: r)) := by
      simp
    rw [htext]
    refine .nextItem ?_ hrest
    exact .space rfl (.space rfl (.space rfl (.space rfl (.space rfl
      (derives_state (hn state List.mem_cons_self) _)))))

theorem derives_entries {table : List ChainState} (hn : ∀ state ∈ table, state.n < 2 ^ 64) (r : List Char) :
    Derives .items (renderEntries table ++ ']' :: r) (arr (table.map stateJson)) r := by
  cases table with
  | nil => exact .noItems r
  | cons state table =>
    have hrest := derives_more (fun s hs => hn s (List.mem_cons_of_mem state hs)) r
    have htext : renderEntries (state :: table) ++ ']' :: r = '\n' :: ' ' :: ' ' :: ' ' :: ' ' :: (renderState state ++
          ((table.flatMap fun state => ",\n    ".toList ++ renderState state) ++ "\n  ".toList ++ ']' :: r)) := by
      show "\n    ".toList ++ renderState state ++ (table.flatMap fun state => ",\n    ".toList ++ renderState state) ++
        "\n  ".toList ++ ']' :: r = _
      simp only [String.reduceToList, List.cons_append, List.nil_append, List.append_assoc]
    rw [htext]
    refine .items ?_ hrest
    exact .space rfl (.space rfl (.space rfl (.space rfl (.space rfl
      (derives_state (hn state List.mem_cons_self) _)))))

theorem derives_bool (b : Bool) (r : List Char) :
    Derives .value ((if b then "true".toList else "false".toList) ++ r) (bool b) r := by
  cases b with
  | true => exact .true r
  | false => exact .false r

/-- the numbers of the report are of 64 bits -/
structure Fits (sink : ChainCheckpoints) : Prop where
  every : sink.every < 2 ^ 64
  frontier : sink.published.frontier.n < 2 ^ 64
  table : ∀ state ∈ sink.published.table, state.n < 2 ^ 64

/-- a field on a line of its own, after the fields before it -/
theorem derives_line (key : List Char) {t r r' : List Char} {v : Json} {fields : List (List Char × Json)}
    (hkey : ∀ c ∈ key, isPlain c = true) (h : Derives .value t v r) (hmore : Derives .moreFields r (obj fields) r') :
    Derives .moreFields (',' :: '\n' :: ' ' :: ' ' :: '"' :: (key ++ '"' :: ':' :: ' ' :: t)) (obj ((key, v) :: fields)) r' := by
  have hname : Derives .value ('\n' :: ' ' :: ' ' :: '"' :: (key ++ '"' :: ':' :: ' ' :: t)) (str key) (':' :: ' ' :: t) :=
    .space rfl (.space rfl (.space rfl (derives_key key hkey _)))
  exact .nextField hname (.space rfl h) hmore

/-- the text is a JSON document, and what it says is the report -/
theorem toJson_document {sink : ChainCheckpoints} (hf : Fits sink) : Document sink.toJson (reportJson sink) := by
  obtain ⟨every, frontier, table, truncated⟩ := sink
  -- from the last field to the first
  have hend : Derives .moreFields ['\n', '\x7d', '\n'] (obj []) ['\n'] := .space rfl (.fieldsEnd _)
  have hentries := derives_entries hf.table ['\n', '\x7d', '\n']
  have hfields := derives_line "checkpoints".toList (by simp [isPlain]) (.arr hentries) hend
  have hfields := derives_line "truncated".toList (by simp [isPlain]) (derives_bool truncated _) hfields
  have hfields := derives_line "frontier".toList (by simp [isPlain]) (derives_state hf.frontier _) hfields
  have hkey := derives_key "checkpoint_every".toList (by simp [isPlain])
  have hfirst := Derives.fields (hkey _) (.space (c := ' ') rfl (derives_num hf.every _)) hfields
  have hall := Derives.obj (.space (c := '\n') rfl (.space (c := ' ') rfl (.space (c := ' ') rfl hfirst)))
  refine ⟨['\n'], ?_, by simp [isSpace]⟩
  convert hall using 1
  · unfold ChainCheckpoints.toJson
    dsimp only
    generalize renderState frontier = f
    generalize renderEntries table = es
    simp only [String.reduceToList, List.cons_append, List.nil_append, List.append_assoc]
  · rfl

theorem filterMap_parseState {table : List ChainState} (hn : ∀ state ∈ table, state.n < 2 ^ 64) :
    (table.map stateJson).filterMap parseState = table := by
  induction table with
  | nil => rfl
  | cons state table ih =>
    rw [List.map_cons, List.filterMap_cons_some (parseState_stateJson (hn state List.mem_cons_self)),
      ih fun s hs => hn s (List.mem_cons_of_mem _ hs)]

theorem regular_state (depth : ℕ) (state : ChainState) : Regular (depth + 1) (stateJson state) := by
  have hkeys : ["n".toList, "h".toList].Nodup := by decide
  refine .obj hkeys fun f hf => ?_
  rcases List.mem_pair.1 hf with rfl | rfl
  · exact .num depth _
  · exact .str depth _

/-- the report is three levels deep, and no key comes twice -/
theorem regular_report (sink : ChainCheckpoints) : Regular MAX_DEPTH (reportJson sink) := by
  have hkeys : ["checkpoint_every".toList, "frontier".toList, "truncated".toList, "checkpoints".toList].Nodup := by decide
  refine .obj hkeys fun f hf => ?_
  simp only [List.mem_cons, List.not_mem_nil, or_false] at hf
  rcases hf with rfl | rfl | rfl | rfl
  · exact .num _ _
  · exact regular_state _ _
  · exact .bool _ _
  · refine .arr fun v hv => ?_
    obtain ⟨state, -, rfl⟩ := List.mem_map.1 hv
    exact regular_state _ _

/-- **The report round trips** through any reader of JSON. -/
theorem parseChain_toJson {fromStr : List Char → Option Json} (hread : Reads fromStr) {sink : ChainCheckpoints}
    (hf : Fits sink) : parseChain fromStr sink.toJson = some ⟨sink.published.frontier, sink.published.table⟩ := by
  obtain ⟨json, hjson, hsame⟩ := hread _ _ (toJson_document hf) (regular_report sink)
  have htable : (reportJson sink).get "checkpoints".toList = arr (sink.published.table.map stateJson) :=
    get_last _ _ [_, _, _]
  have hfrontier : (reportJson sink).get "frontier".toList = stateJson sink.published.frontier :=
    (get_before (by decide) _ [_, _, _]).trans ((get_before (by decide) _ [_, _]).trans (get_last _ _ [_]))
  have hstate : parseState (json.get "frontier".toList) = some sink.published.frontier := by
    rw [← parseState_same (hsame.get _), hfrontier, parseState_stateJson hf.frontier]
  have hentries : (json.get "checkpoints".toList).asArray.map (List.filterMap parseState) = some sink.published.table := by
    rw [← (hsame.get _).filterMap fun _ _ => parseState_same, htable, asArray, Option.map_some,
      filterMap_parseState hf.table]
  obtain ⟨entries, harray, htable⟩ := Option.map_eq_some_iff.1 hentries
  unfold parseChain
  rw [hjson, Option.bind_some, hstate, Option.bind_some, harray, Option.map_some, htable]

end Queso.Chain
