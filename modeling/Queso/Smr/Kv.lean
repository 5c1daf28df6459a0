/-
The key-value state machine that a decided command is applied to.

A `Put` whose sequence number is not above the highest one its client had applied is a duplicate and changes nothing.
A `Get` changes nothing.
-/
import Mathlib.Data.List.AList
import Queso.Smr.Command

namespace Queso

inductive Applied where
  | putNew
  | putDuplicate
  | get (value : Option Value)
deriving DecidableEq, Repr

def Applied.getValue : Applied → Option Value
  | .get v => v
  | _ => none

structure Kv where
  map : AList fun _ : Key => Value
  lastSeq : AList fun _ : ClientId => ℕ
deriving DecidableEq

namespace Kv

def new : Kv := ⟨∅, ∅⟩

/-- the client had a sequence number no smaller applied -/
def isDuplicate (kv : Kv) (client : ClientId) (seq : ℕ) : Bool :=
  match kv.lastSeq.lookup client with
  | some s => decide (seq ≤ s)
  | none => false

def apply (kv : Kv) : Command → Kv × Applied
  | .put client seq key value =>
    if kv.isDuplicate client seq then (kv, .putDuplicate)
    else (⟨kv.map.insert key value, kv.lastSeq.insert client seq⟩, .putNew)
  | .get _ _ key => (kv, .get (kv.map.lookup key))

/-- the state after a log -/
def replay (log : List Command) : Kv := log.foldl (fun kv c => (kv.apply c).1) new

theorem replay_snoc (log : List Command) (c : Command) : replay (log ++ [c]) = ((replay log).apply c).1 := by
  simp [replay, List.foldl_append]

theorem apply_put (kv : Kv) (client : ClientId) (seq : ℕ) (key : Key) (value : Value) :
    kv.apply (.put client seq key value) =
      if kv.isDuplicate client seq then (kv, .putDuplicate)
      else (⟨kv.map.insert key value, kv.lastSeq.insert client seq⟩, .putNew) := rfl

theorem isDuplicate_iff {kv : Kv} {client : ClientId} {seq : ℕ} :
    kv.isDuplicate client seq = true ↔ ∃ s, kv.lastSeq.lookup client = some s ∧ seq ≤ s := by
  unfold isDuplicate
  cases kv.lastSeq.lookup client with
  | none => simp
  | some s => simp

theorem lookup_lastSeq_insert (kv : Kv) (client c : ClientId) (seq : ℕ) :
    (kv.lastSeq.insert client seq).lookup c = if c = client then some seq else kv.lastSeq.lookup c := by
  split_ifs with h
  · rw [h, AList.lookup_insert]
  · rw [AList.lookup_insert_ne h]

/-- a client is known by the highest sequence number of its `Put`s -/
theorem isDuplicate_apply {kv : Kv} {d : Command} {client : ClientId} {seq : ℕ} :
    (kv.apply d).1.isDuplicate client seq = true ↔
      kv.isDuplicate client seq = true ∨ ∃ s k v, d = .put client s k v ∧ seq ≤ s := by
  cases d with
  | get c s k => simp [apply]
  | put c s k v =>
    rw [apply_put]
    split_ifs with hdup
    · refine ⟨.inl, ?_⟩
      rintro (h | ⟨s', k', v', heq, hle⟩)
      · exact h
      · simp only [Command.put.injEq] at heq
        obtain ⟨rfl, rfl, -, -⟩ := heq
        obtain ⟨t, ht, hst⟩ := isDuplicate_iff.1 hdup
        exact isDuplicate_iff.2 ⟨t, ht, hle.trans hst⟩
    · rw [isDuplicate_iff, isDuplicate_iff]
      dsimp only
      rw [lookup_lastSeq_insert]
      split_ifs with hc
      · subst hc
        constructor
        · rintro ⟨s', hs', hle⟩
          obtain rfl := Option.some.inj hs'
          exact .inr ⟨s, k, v, rfl, hle⟩
        · rintro (⟨t, ht, hle⟩ | ⟨s', k', v', heq, hle⟩)
          · -- the client's last number was below the new one, which is not a duplicate
            refine ⟨s, rfl, hle.trans ?_⟩
            by_contra hst
            exact hdup (isDuplicate_iff.2 ⟨t, ht, by omega⟩)
          · simp only [Command.put.injEq] at heq
            obtain ⟨-, rfl, -, -⟩ := heq
            exact ⟨s, rfl, hle⟩
      · refine ⟨.inl, ?_⟩
        rintro (h | ⟨s', k', v', heq, -⟩)
        · exact h
        · simp only [Command.put.injEq] at heq
          exact absurd heq.1.symm hc

theorem isDuplicate_replay {log : List Command} {client : ClientId} {seq : ℕ} :
    (replay log).isDuplicate client seq = true ↔ ∃ s k v, .put client s k v ∈ log ∧ seq ≤ s := by
  induction log using List.reverseRecOn with
  | nil => simp [replay, new, isDuplicate]
  | append_singleton log d ih =>
    rw [replay_snoc, isDuplicate_apply, ih]
    constructor
    · rintro (⟨s, k, v, hm, hle⟩ | ⟨s, k, v, rfl, hle⟩)
      · exact ⟨s, k, v, List.mem_append_left _ hm, hle⟩
      · exact ⟨s, k, v, by simp, hle⟩
    · rintro ⟨s, k, v, hm, hle⟩
      rcases List.mem_append.1 hm with hm | hm
      · exact .inl ⟨s, k, v, hm, hle⟩
      · exact .inr ⟨s, k, v, (List.mem_singleton.1 hm).symm, hle⟩

/-- a second copy of a command changes nothing, and no copy of a `Get` does -/
theorem apply_eq_self {log : List Command} {c : Command} (h : c.isPut = true → c ∈ log) :
    ((replay log).apply c).1 = replay log := by
  cases c with
  | get c s k => rfl
  | put c s k v =>
    have hdup : (replay log).isDuplicate c s = true := isDuplicate_replay.2 ⟨s, k, v, h rfl, le_rfl⟩
    rw [apply_put, if_pos hdup]

end Kv

end Queso
