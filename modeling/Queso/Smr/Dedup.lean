/-
Deduplication: a log with copies of its `Put`s in it is the log without them.

- `withCopies_same`: copies, each after a `Put` of the same client and number, change neither the final store nor what
  any `Get` observes.
- `map_eq_overwrite`: when each client's `Put`s first occur in increasing order, the store is the one that overwrites
  at every first occurrence.
- `dedup_exactly_once`: both, for every log and every way of copying its `Put`s into it.
-/
import Queso.Smr.Kv

namespace Queso

namespace Kv

/-- every applied command, with what applying it returned -/
def outcomes (log : List Command) : List (Command × Applied) :=
  (log.foldl (fun a c => ((a.1.apply c).1, a.2 ++ [(c, (a.1.apply c).2)])) (new, [])).2

/-- what the `Get`s of a log observe, in the order of the log -/
def observed (log : List Command) : List (Command × Applied) := (outcomes log).filter fun o => !o.1.isPut

/-- one step of a store that overwrites whatever the client sent before -/
def overwrite (map : AList fun _ : Key => Value) : Command → AList fun _ : Key => Value
  | .put _ _ key value => map.insert key value
  | .get _ _ _ => map

end Kv

/-- the same client and number, both `Put`s -/
def Command.samePut (c d : Command) : Bool := c.isPut && d.isPut && c.clientSeq == d.clientSeq

/-- the `Put`s of a log that no earlier `Put` of the same client and number precedes -/
def firstPuts (log : List Command) : List Command :=
  log.foldl (fun l c => if c.isPut && !l.any c.samePut then l ++ [c] else l) []

/-- each client's `Put`s first occur in strictly increasing order -/
def Increasing (log : List Command) : Prop :=
  (firstPuts log).Pairwise fun a b => a.client = b.client → a.seq < b.seq

/-- `log'` is `log` with copies of `Put`s inserted, each after an earlier `Put` of the same client and number -/
inductive WithCopies (log : List Command) : List Command → Prop where
  | refl : WithCopies log log
  | copy {before after : List Command} {c d : Command} (h : WithCopies log (before ++ after)) (hd : d ∈ before)
      (hsame : c.samePut d = true) : WithCopies log (before ++ c :: after)

theorem Command.samePut_iff {c d : Command} :
    c.samePut d = true ↔ ∃ client s k v k' v', c = .put client s k v ∧ d = .put client s k' v' := by
  cases c <;> cases d <;> simp [Command.samePut, Command.isPut, Command.clientSeq, Command.client, Command.seq]

/-! ## What copies change -/

namespace Kv

theorem outcomes_foldl (kv : Kv) (acc : List (Command × Applied)) (log : List Command) :
    log.foldl (fun a c => ((a.1.apply c).1, a.2 ++ [(c, (a.1.apply c).2)])) (kv, acc) =
      (log.foldl (fun kv c => (kv.apply c).1) kv,
        acc ++ (log.foldl (fun a c => ((a.1.apply c).1, a.2 ++ [(c, (a.1.apply c).2)])) (kv, [])).2) := by
  induction log generalizing kv acc with
  | nil => simp
  | cons c log ih =>
    simp only [List.foldl_cons, List.nil_append]
    rw [ih, ih (kv.apply c).1 [(c, (kv.apply c).2)], List.append_assoc]

theorem outcomes_append (l m : List Command) :
    outcomes (l ++ m) =
      outcomes l ++ (m.foldl (fun a c => ((a.1.apply c).1, a.2 ++ [(c, (a.1.apply c).2)])) (replay l, [])).2 := by
  rw [outcomes, List.foldl_append, outcomes_foldl new [], outcomes_foldl]
  rfl

/-- a copy is a duplicate -/
theorem apply_copy {log : List Command} {c d : Command} (hd : d ∈ log) (hsame : c.samePut d = true) :
    (replay log).apply c = (replay log, .putDuplicate) := by
  obtain ⟨client, s, k, v, k', v', rfl, rfl⟩ := Command.samePut_iff.1 hsame
  have hdup : (replay log).isDuplicate client s = true := isDuplicate_replay.2 ⟨s, k', v', hd, le_rfl⟩
  rw [apply_put, if_pos hdup]

theorem replay_append (l m : List Command) :
    replay (l ++ m) = m.foldl (fun kv c => (kv.apply c).1) (replay l) := by
  rw [replay, List.foldl_append, replay]

theorem replay_copy {before : List Command} {c d : Command} (hd : d ∈ before) (hsame : c.samePut d = true)
    (after : List Command) : replay (before ++ c :: after) = replay (before ++ after) := by
  rw [replay_append, replay_append, List.foldl_cons, apply_copy hd hsame]

theorem observed_copy {before : List Command} {c d : Command} (hd : d ∈ before) (hsame : c.samePut d = true)
    (after : List Command) : observed (before ++ c :: after) = observed (before ++ after) := by
  have hput : c.isPut = true := by
    obtain ⟨client, s, k, v, k', v', rfl, -⟩ := Command.samePut_iff.1 hsame
    rfl
  rw [observed, observed, outcomes_append, outcomes_append, List.foldl_cons, apply_copy hd hsame, outcomes_foldl]
  simp [List.filter_append, hput]

end Kv

/-- **Copies change nothing.** -/
theorem withCopies_same {log log' : List Command} (h : WithCopies log log') :
    Kv.replay log' = Kv.replay log ∧ Kv.observed log' = Kv.observed log := by
  induction h with
  | refl => exact ⟨rfl, rfl⟩
  | copy h hd hsame ih => exact ⟨(Kv.replay_copy hd hsame _).trans ih.1, (Kv.observed_copy hd hsame _).trans ih.2⟩

/-! ## First occurrences -/

theorem firstPuts_snoc (log : List Command) (c : Command) :
    firstPuts (log ++ [c]) =
      if c.isPut && !(firstPuts log).any c.samePut then firstPuts log ++ [c] else firstPuts log := by
  simp [firstPuts, List.foldl_append]

theorem firstPuts_subset {log : List Command} {c : Command} (h : c ∈ firstPuts log) : c ∈ log := by
  induction log using List.reverseRecOn with
  | nil => exact h
  | append_singleton log d ih =>
    rw [firstPuts_snoc] at h
    split_ifs at h
    · rcases List.mem_append.1 h with h | h
      · exact List.mem_append_left _ (ih h)
      · exact List.mem_append_right _ h
    · exact List.mem_append_left _ (ih h)

/-- every `Put` has a first occurrence -/
theorem exists_firstPut {log : List Command} {client : ClientId} {s : ℕ} {k : Key} {v : Value}
    (h : .put client s k v ∈ log) : ∃ k' v', .put client s k' v' ∈ firstPuts log := by
  induction log using List.reverseRecOn with
  | nil => simp at h
  | append_singleton log d ih =>
    rw [firstPuts_snoc]
    rcases List.mem_append.1 h with h | h
    · obtain ⟨k', v', hm⟩ := ih h
      refine ⟨k', v', ?_⟩
      split_ifs
      · exact List.mem_append_left _ hm
      · exact hm
    · obtain rfl := List.mem_singleton.1 h
      by_cases hany : (firstPuts log).any (Command.put client s k v).samePut = true
      · obtain ⟨d, hd, hsame⟩ := List.any_eq_true.1 hany
        obtain ⟨c', s', k₁, v₁, k', v', heq, rfl⟩ := Command.samePut_iff.1 hsame
        obtain ⟨rfl, rfl, -, -⟩ := Command.put.injEq .. ▸ heq
        refine ⟨k', v', ?_⟩
        rw [hany]
        simpa using hd
      · refine ⟨k, v, ?_⟩
        simp [Command.isPut, hany]

/-- a first occurrence above everything its client sent is applied -/
theorem isDuplicate_first {log : List Command} {client : ClientId} {s : ℕ}
    (habove : ∀ d ∈ firstPuts log, d.client = client → d.seq < s) : (Kv.replay log).isDuplicate client s = false := by
  rw [Bool.eq_false_iff]
  intro hdup
  obtain ⟨s', k, v, hm, hle⟩ := Kv.isDuplicate_replay.1 hdup
  obtain ⟨k', v', hfirst⟩ := exists_firstPut hm
  exact absurd (habove _ hfirst rfl) (not_lt.2 hle)

/-- **In order, the store overwrites.** -/
theorem map_eq_overwrite {log : List Command} (h : Increasing log) :
    (Kv.replay log).map = (firstPuts log).foldl Kv.overwrite ∅ := by
  induction log using List.reverseRecOn with
  | nil => rfl
  | append_singleton log c ih =>
    rw [Increasing, firstPuts_snoc] at h
    rw [Kv.replay_snoc, firstPuts_snoc]
    cases c with
    | get client s k =>
      simp only [Command.isPut, Bool.false_and, Bool.false_eq_true, if_false] at h ⊢
      exact ih h
    | put client s k v =>
      split_ifs at h ⊢ with hnew
      · -- a first occurrence: its client sent nothing as high before
        obtain ⟨hlog, -, hlast⟩ := List.pairwise_append.1 h
        have hdup : (Kv.replay log).isDuplicate client s = false :=
          isDuplicate_first fun d hd hc => hlast d hd _ (List.mem_singleton_self _) hc
        rw [Kv.apply_put, hdup, List.foldl_append, ← ih hlog]
        rfl
      · have hany : (firstPuts log).any (Command.put client s k v).samePut = true := by
          simpa [Command.isPut] using hnew
        obtain ⟨d, hd, hsame⟩ := List.any_eq_true.1 hany
        rw [Kv.apply_copy (firstPuts_subset hd) hsame]
        exact ih h

/-- **Deduplication is exactly-once.** Copies change neither the final store nor what any `Get` observes, and when each
client's `Put`s first occur in increasing order the final map is what overwriting at the first occurrences gives. -/
theorem dedup_exactly_once {log log' : List Command} (h : WithCopies log log') :
    Kv.replay log' = Kv.replay log ∧ Kv.observed log' = Kv.observed log ∧
      (Increasing log → (Kv.replay log').map = (firstPuts log).foldl Kv.overwrite ∅) := by
  obtain ⟨hkv, hobs⟩ := withCopies_same h
  refine ⟨hkv, hobs, fun hinc => ?_⟩
  rw [hkv]
  exact map_eq_overwrite hinc

/-- a late copy of client 1's first write, after its second one: a read still sees the second, and so does the map -/
theorem dedup_late_copy :
    Kv.replay [.put 1 1 10 100, .put 1 2 10 200, .put 1 1 10 100, .get 9 0 10] =
        Kv.replay [.put 1 1 10 100, .put 1 2 10 200, .get 9 0 10] ∧
      Kv.observed [.put 1 1 10 100, .put 1 2 10 200, .put 1 1 10 100, .get 9 0 10] =
        [(.get 9 0 10, .get (some 200))] ∧
      (Kv.replay [.put 1 1 10 100, .put 1 2 10 200, .put 1 1 10 100, .get 9 0 10]).map.lookup 10 = some 200 := by
  have hcopy : WithCopies [.put 1 1 10 100, .put 1 2 10 200, .get 9 0 10]
      ([.put 1 1 10 100, .put 1 2 10 200] ++ .put 1 1 10 100 :: [.get 9 0 10]) :=
    .copy .refl List.mem_cons_self (by decide)
  have hinc : Increasing [.put 1 1 10 100, .put 1 2 10 200, .get 9 0 10] := by
    unfold Increasing
    decide
  obtain ⟨hkv, hobs, hmap⟩ := dedup_exactly_once hcopy
  exact ⟨hkv, hobs.trans (by decide), (congrArg (AList.lookup 10) (hmap hinc)).trans (by decide)⟩

end Queso
