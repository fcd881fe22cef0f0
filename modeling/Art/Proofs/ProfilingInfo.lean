import Art.Runtime.ProfilingInfo

/-!
# Concurrent `AddInvokeInfo` calls keep the inline cache a duplicate-free prefix

A step of a call either leaves the entries alone or fills a null entry with its own class
(`move_of_step`).  Entries that hold a class never change, which is all a call relies on from the
others: what it has scanned stays scanned, and a class it found or put stays (`ThreadInv.grows`).
A call fills an entry only after it has scanned every entry before it and found neither a null
nor its own class, and only while that entry is null.  So the entries stay a run of classes
followed by nulls, with no class twice (`CacheInv`).  A call that has returned has its class in
the cache, or it found all entries holding other classes.  Every interleaving is finite and ends
only when every call has returned (`add_invoke_info_interleavings`).
-/

namespace Art

namespace ProfilingInfo

open Interleaving

variable {α : Type}

section Entries

theorem getD_set_entries (s : List (Option α)) (i j : Nat) (x : Option α) :
    (s.set i x).getD j none = if i = j ∧ i < s.length then x else s.getD j none := by
  simp only [List.getD_eq_getElem?_getD, List.getElem?_set]
  split <;> split <;> simp_all

/-- The entries are a run of classes followed by a run of nulls. -/
def IsPrefix (s : List (Option α)) : Prop :=
  ∀ j k, j ≤ k → s.getD j none = none → s.getD k none = none

/-- No class is in two entries. -/
def NoDuplicates (s : List (Option α)) : Prop :=
  ∀ j k c, s.getD j none = some c → s.getD k none = some c → j = k

/-- Every entry holds a class other than `cls`. -/
def Megamorphic (s : List (Option α)) (cls : α) : Prop :=
  ∀ e ∈ s, ∃ d, e = some d ∧ d ≠ cls

/-- The entries below `i` hold classes other than `cls`: what a call has scanned. -/
def Scanned (s : List (Option α)) (cls : α) (i : Nat) : Prop :=
  ∀ j < i, ∃ d, s.getD j none = some d ∧ d ≠ cls

/-- The invariant of the cache. -/
structure CacheInv (s : List (Option α)) : Prop where
  length_eq : s.length = kIndividualCacheSize
  isPrefix : IsPrefix s
  noDuplicates : NoDuplicates s

/-- What a call knows of the cache at each point of its loop. -/
def ThreadInv (s : List (Option α)) (t : Thread α) : Prop :=
  match t.pc with
  | .loop i => i.toNat ≤ kIndividualCacheSize ∧ Scanned s t.cls i.toNat
  | .cas i => i.toNat < kIndividualCacheSize ∧ Scanned s t.cls i.toNat
  | .done => some t.cls ∈ s ∨ Megamorphic s t.cls

/-- The rely of every call: no entry that holds a class changes, and the size stays. -/
structure Grows (s s' : List (Option α)) : Prop where
  length_eq : s'.length = s.length
  getD_eq : ∀ j c, s.getD j none = some c → s'.getD j none = some c

theorem grows_set_of_getD_eq_none {s : List (Option α)} {i : Nat} (x : Option α)
    (hi : s.getD i none = none) : Grows s (s.set i x) := by
  refine ⟨List.length_set .., fun j c hj => ?_⟩
  rw [getD_set_entries]
  split
  · rename_i h
    rw [← h.1, hi] at hj
    cases hj
  · exact hj

theorem Scanned.grows {s s' : List (Option α)} {cls : α} {i : Nat} (h : Scanned s cls i)
    (hg : Grows s s') : Scanned s' cls i := by
  intro j hj
  obtain ⟨d, hd, hne⟩ := h j hj
  exact ⟨d, hg.getD_eq j d hd, hne⟩

theorem mem_iff_getD {s : List (Option α)} {c : α} :
    some c ∈ s ↔ ∃ j, s.getD j none = some c := by
  rw [List.mem_iff_getElem]
  constructor
  · rintro ⟨j, hj, he⟩
    exact ⟨j, by simp [List.getD_eq_getElem?_getD, hj, he]⟩
  · rintro ⟨j, hj⟩
    by_cases hlt : j < s.length
    · exact ⟨j, hlt, by simpa [List.getD_eq_getElem?_getD, hlt] using hj⟩
    · simp [List.getD_eq_getElem?_getD, hlt] at hj

/-- An assertion of a call stays true whatever the other calls do. -/
theorem ThreadInv.grows {s s' : List (Option α)} {t : Thread α} (h : ThreadInv s t)
    (hg : Grows s s') : ThreadInv s' t := by
  unfold ThreadInv at h ⊢
  split at h
  · exact ⟨h.1, h.2.grows hg⟩
  · exact ⟨h.1, h.2.grows hg⟩
  · rcases h with hmem | hmega
    · obtain ⟨j, hj⟩ := mem_iff_getD.1 hmem
      exact Or.inl (mem_iff_getD.2 ⟨j, hg.getD_eq j _ hj⟩)
    · -- every entry holds a class, and each of them stays
      refine Or.inr fun e he => ?_
      obtain ⟨j, hj, rfl⟩ := List.getElem_of_mem he
      have hjs : j < s.length := by rw [← hg.length_eq]; exact hj
      obtain ⟨d, hd, hne⟩ := hmega s[j] (List.getElem_mem hjs)
      refine ⟨d, ?_, hne⟩
      have := hg.getD_eq j d (by simp [List.getD_eq_getElem?_getD, hd, hjs])
      simpa [List.getD_eq_getElem?_getD, hj] using this

/-- A call that scanned every entry found them all holding other classes. -/
theorem megamorphic_of_scanned {s : List (Option α)} {cls : α}
    (hlen : s.length = kIndividualCacheSize) (h : Scanned s cls kIndividualCacheSize) :
    Megamorphic s cls := by
  intro e he
  obtain ⟨j, hj, rfl⟩ := List.getElem_of_mem he
  obtain ⟨d, hd, hne⟩ := h j (hlen ▸ hj)
  exact ⟨d, by simpa [List.getD_eq_getElem?_getD, hj] using hd, hne⟩

/-- A class that a call has scanned past and whose next entry is null is not in the cache. -/
theorem getD_ne_of_scanned {s : List (Option α)} {cls : α} {i : Nat} (hp : IsPrefix s)
    (hscan : Scanned s cls i) (he : s.getD i none = none) (k : Nat) :
    s.getD k none ≠ some cls := by
  intro hk
  rcases Nat.lt_or_ge k i with hlt | hge
  · obtain ⟨d, hd, hne⟩ := hscan k hlt
    rw [hk, Option.some.injEq] at hd
    exact hne hd.symm
  · rw [hp i k hge he] at hk
    cases hk

/-- Filling the first null entry with a class not in the cache keeps it a duplicate-free
prefix. -/
theorem CacheInv.set {s : List (Option α)} (hc : CacheInv s) {cls : α} {i : Nat}
    (hi : i < kIndividualCacheSize) (hscan : Scanned s cls i) (he : s.getD i none = none) :
    CacheInv (s.set i (some cls)) := by
  have hi' : i < s.length := hc.length_eq ▸ hi
  have hnew := getD_ne_of_scanned hc.isPrefix hscan he
  refine ⟨by rw [List.length_set, hc.length_eq], fun j k hjk hj => ?_, fun j k c hj hk => ?_⟩
  · -- a null entry after the fill lies past the filled one, and so does every later entry
    rw [getD_set_entries] at hj ⊢
    have hj' : i < j := by
      split at hj
      · cases hj
      · rcases Nat.lt_or_ge j i with hlt | hge
        · obtain ⟨d, hd, -⟩ := hscan j hlt
          rw [hd] at hj
          cases hj
        · omega
    rw [if_neg (by omega)]
    exact hc.isPrefix j k hjk (by rwa [if_neg (by omega)] at hj)
  · rw [getD_set_entries] at hj hk
    split at hj <;> split at hk
    · omega
    · rename_i hij _
      rw [Option.some.injEq] at hj
      subst hj
      exact absurd hk (hnew k)
    · rename_i _ hik
      rw [Option.some.injEq] at hk
      subst hk
      exact absurd hj (hnew j)
    · exact hc.noDuplicates j k c hj hk

end Entries

section Step

/-- The ways a call steps; a failed compare-and-set returns to the loop's test at the same
index. -/
inductive Move (s : List (Option α)) : Thread α → List (Option α) → Thread α → Prop
  | hit (cls : α) (i : BitVec 64) (hi : i.toNat < kIndividualCacheSize)
      (he : s.getD i.toNat none = some cls) : Move s ⟨cls, .loop i⟩ s ⟨cls, .done⟩
  | next (cls d : α) (i : BitVec 64) (hi : i.toNat < kIndividualCacheSize)
      (he : s.getD i.toNat none = some d) (hd : d ≠ cls) :
      Move s ⟨cls, .loop i⟩ s ⟨cls, .loop (i + 1)⟩
  | null (cls : α) (i : BitVec 64) (hi : i.toNat < kIndividualCacheSize)
      (he : s.getD i.toNat none = none) : Move s ⟨cls, .loop i⟩ s ⟨cls, .cas i⟩
  | full (cls : α) (i : BitVec 64) (hi : kIndividualCacheSize ≤ i.toNat) :
      Move s ⟨cls, .loop i⟩ s ⟨cls, .done⟩
  | casSet (cls : α) (i : BitVec 64) (he : s.getD i.toNat none = none) :
      Move s ⟨cls, .cas i⟩ (s.set i.toNat (some cls)) ⟨cls, .done⟩
  | casRetry (cls : α) (i : BitVec 64) (he : s.getD i.toNat none ≠ none) :
      Move s ⟨cls, .cas i⟩ s ⟨cls, .loop i⟩

theorem move_of_step [DecidableEq α] {s s' : List (Option α)} {t t' : Thread α}
    (h : addInvokeInfoStep s t = some (s', t')) : Move s t s' t' := by
  obtain ⟨cls, pc⟩ := t
  cases pc with
  | loop i =>
    by_cases hi : i.toNat < kIndividualCacheSize
    · rcases he : s.getD i.toNat none with _ | d
      · simp only [addInvokeInfoStep, if_pos hi, he, Option.some.injEq, Prod.mk.injEq] at h
        obtain ⟨rfl, rfl⟩ := h
        exact .null cls i hi he
      · by_cases hd : d = cls
        · subst hd
          simp only [addInvokeInfoStep, if_pos hi, he, if_true, Option.some.injEq,
            Prod.mk.injEq] at h
          obtain ⟨rfl, rfl⟩ := h
          exact .hit d i hi he
        · simp only [addInvokeInfoStep, if_pos hi, he, if_neg hd, Option.some.injEq,
            Prod.mk.injEq] at h
          obtain ⟨rfl, rfl⟩ := h
          exact .next cls d i hi he hd
    · simp only [addInvokeInfoStep, if_neg hi, Option.some.injEq, Prod.mk.injEq] at h
      obtain ⟨rfl, rfl⟩ := h
      exact .full cls i (Nat.le_of_not_lt hi)
  | cas i =>
    by_cases he : s.getD i.toNat none = none
    · simp only [addInvokeInfoStep, if_pos he, Option.some.injEq, Prod.mk.injEq] at h
      obtain ⟨rfl, rfl⟩ := h
      exact .casSet cls i he
    · simp only [addInvokeInfoStep, if_neg he, Option.some.injEq, Prod.mk.injEq] at h
      obtain ⟨rfl, rfl⟩ := h
      -- `--i` and then `++i`, through `SIZE_MAX` at 0
      rw [BitVec.sub_add_cancel]
      exact .casRetry cls i he
  | done => simp [addInvokeInfoStep] at h

theorem Move.cls_eq {s s' : List (Option α)} {t t' : Thread α} (h : Move s t s' t') :
    t'.cls = t.cls := by
  cases h <;> rfl

/-- The guarantee of every call: it only fills a null entry. -/
theorem Move.grows {s s' : List (Option α)} {t t' : Thread α} (h : Move s t s' t') :
    Grows s s' := by
  cases h with
  | casSet cls i he => exact grows_set_of_getD_eq_none _ he
  | hit | next | null | full | casRetry => exact ⟨rfl, fun _ _ => id⟩

@[simp] theorem threadInv_loop {s : List (Option α)} {cls : α} {i : BitVec 64} :
    ThreadInv s ⟨cls, .loop i⟩ ↔ i.toNat ≤ kIndividualCacheSize ∧ Scanned s cls i.toNat :=
  Iff.rfl

@[simp] theorem threadInv_cas {s : List (Option α)} {cls : α} {i : BitVec 64} :
    ThreadInv s ⟨cls, .cas i⟩ ↔ i.toNat < kIndividualCacheSize ∧ Scanned s cls i.toNat :=
  Iff.rfl

@[simp] theorem threadInv_done {s : List (Option α)} {cls : α} :
    ThreadInv s ⟨cls, .done⟩ ↔ some cls ∈ s ∨ Megamorphic s cls :=
  Iff.rfl

/-- A call's own step keeps the cache's invariant and its own assertion. -/
theorem Move.inv {s s' : List (Option α)} {t t' : Thread α} (h : Move s t s' t')
    (hc : CacheInv s) (ht : ThreadInv s t) : CacheInv s' ∧ ThreadInv s' t' := by
  cases h with
  | hit cls i hi he => exact ⟨hc, Or.inl (mem_iff_getD.2 ⟨_, he⟩)⟩
  | next cls d i hi he hd =>
    have hsucc : (i + 1).toNat = i.toNat + 1 := by
      rw [BitVec.toNat_add, show (1 : BitVec 64).toNat = 1 from rfl]
      unfold kIndividualCacheSize at hi
      omega
    refine ⟨hc, ?_⟩
    rw [threadInv_loop, hsucc]
    refine ⟨hi, fun j hj => ?_⟩
    rcases Nat.lt_succ_iff_lt_or_eq.1 hj with hj | rfl
    · exact (threadInv_loop.1 ht).2 j hj
    · exact ⟨d, he, hd⟩
  | null cls i hi he => exact ⟨hc, hi, (threadInv_loop.1 ht).2⟩
  | full cls i hi =>
    obtain ⟨hle, hscan⟩ := threadInv_loop.1 ht
    have hN : i.toNat = kIndividualCacheSize := Nat.le_antisymm hle hi
    exact ⟨hc, Or.inr (megamorphic_of_scanned hc.length_eq (hN ▸ hscan))⟩
  | casSet cls i he =>
    obtain ⟨hi, hscan⟩ := threadInv_cas.1 ht
    refine ⟨hc.set hi hscan he, Or.inl (mem_iff_getD.2 ⟨i.toNat, ?_⟩)⟩
    rw [getD_set_entries, if_pos ⟨rfl, hc.length_eq ▸ hi⟩]
  | casRetry cls i he =>
    obtain ⟨hi, hscan⟩ := threadInv_cas.1 ht
    exact ⟨hc, Nat.le_of_lt hi, hscan⟩

end Step

section Run

/-- Every interleaving of the calls keeps the cache's invariant and each call's assertion. -/
theorem inv_reachable [DecidableEq α] {entries : List (Option α)} {classes : List α}
    (hinit : CacheInv entries)
    {c : Config (List (Option α)) (Thread α)}
    (h : Reachable addInvokeInfoStep (start entries classes) c) : Inv CacheInv ThreadInv c := by
  refine Inv.reachable (fun s t s' t' hc ht hs => (move_of_step hs).inv hc ht)
    (fun s t u s' u' _ ht _ hs => ht.grows (move_of_step hs).grows) ⟨hinit, ?_⟩ h
  intro t ht
  obtain ⟨cls, -, rfl⟩ := List.mem_map.1 ht
  exact ⟨Nat.zero_le _, fun j hj => absurd hj (Nat.not_lt_zero j)⟩

/-- The calls keep their classes. -/
theorem classes_reachable [DecidableEq α] {entries : List (Option α)} {classes : List α}
    {c : Config (List (Option α)) (Thread α)}
    (h : Reachable addInvokeInfoStep (start entries classes) c) :
    c.threads.map Thread.cls = classes := by
  rw [map_threads_of_reachable _ Thread.cls (fun _ _ _ _ hs => (move_of_step hs).cls_eq) h]
  simp [start, Function.comp_def]

theorem cacheInv_empty : CacheInv (List.replicate kIndividualCacheSize (none : Option α)) := by
  have hnone : ∀ j, (List.replicate kIndividualCacheSize (none : Option α)).getD j none = none :=
    fun j => by
      simp only [List.getD_eq_getElem?_getD, List.getElem?_replicate]
      split <;> rfl
  refine ⟨List.length_replicate, fun j k _ _ => hnone k, fun j k c hj _ => ?_⟩
  rw [hnone j] at hj
  cases hj

end Run

/-! ## Every call returns

A call has at most three steps left per entry from its index on, and a compare-and-set that is
bound to fail, its entry no longer null, costs two more (`remaining`).  Every step either fills a
null entry or lowers what its own call has left without touching the entries, so the null
entries and then the sum of what the calls have left fall at every step (`Move.progress`): no
interleaving runs forever.  A call that has not returned always has a step, so the
interleavings end exactly when every call has returned. -/

section Progress

/-- What a call has left to do. -/
def remaining (s : List (Option α)) (t : Thread α) : Nat :=
  match t.pc with
  | .loop i => 3 * (kIndividualCacheSize - i.toNat) + 2
  | .cas i => 3 * (kIndividualCacheSize - i.toNat) + if s.getD i.toNat none = none then 1 else 3
  | .done => 0

/-- The null entries, then what the calls have left to do. -/
def progressMeasure (c : Config (List (Option α)) (Thread α)) : Nat × Nat :=
  (c.shared.countP Option.isNone, (c.threads.map (remaining c.shared)).sum)

/-- A step fills a null entry, or leaves the entries and lowers what its call has left. -/
theorem Move.progress {s s' : List (Option α)} {t t' : Thread α} (h : Move s t s' t') :
    s'.countP Option.isNone < s.countP Option.isNone ∨ (s' = s ∧ remaining s t' < remaining s t) := by
  cases h with
  | hit cls i hi he => exact .inr ⟨rfl, by simp [remaining]⟩
  | next cls d i hi he hd =>
    have hsucc : (i + 1).toNat = i.toNat + 1 := by
      rw [BitVec.toNat_add, show (1 : BitVec 64).toNat = 1 from rfl]
      unfold kIndividualCacheSize at hi
      omega
    refine .inr ⟨rfl, ?_⟩
    simp only [remaining, hsucc]
    omega
  | null cls i hi he =>
    refine .inr ⟨rfl, ?_⟩
    simp only [remaining, he, if_true]
    omega
  | full cls i hi => exact .inr ⟨rfl, by simp [remaining]⟩
  | casSet cls i he =>
    by_cases hlt : i.toNat < s.length
    · -- the null entry is filled
      have hnone : s[i.toNat] = none := by
        simpa [List.getD_eq_getElem?_getD, hlt] using he
      have hpos : 0 < s.countP Option.isNone :=
        List.countP_pos_iff.2 ⟨_, List.getElem_mem hlt, by rw [hnone]; rfl⟩
      refine .inl ?_
      rw [List.countP_set hlt, hnone]
      simp only [Option.isNone_none, Option.isNone_some, if_true, Bool.false_eq_true, if_false]
      omega
    · -- past the entries the compare-and-set writes nothing
      refine .inr ⟨List.set_eq_of_length_le (Nat.le_of_not_lt hlt), ?_⟩
      simp only [remaining, he, if_true]
      omega
  | casRetry cls i he =>
    refine .inr ⟨rfl, ?_⟩
    simp only [remaining, if_neg he]
    omega

theorem sum_set_lt {l : List Nat} {i : Nat} (hi : i < l.length) {x : Nat} (hx : x < l[i]) :
    (l.set i x).sum < l.sum := by
  have h := List.sum_set l i l[i]
  rw [List.set_getElem_self] at h
  rw [List.sum_set, h, if_pos hi, if_pos hi]
  omega

theorem progressMeasure_lt [DecidableEq α] {c c' : Config (List (Option α)) (Thread α)}
    (h : Step addInvokeInfoStep c c') :
    Prod.Lex (· < ·) (· < ·) (progressMeasure c') (progressMeasure c) := by
  cases h with
  | thread i hi s t hs =>
    rcases (move_of_step hs).progress with hlt | ⟨rfl, hlt⟩
    · exact .left _ _ hlt
    · refine .right _ ?_
      rw [List.map_set]
      exact sum_set_lt (by simpa using hi) (by simpa using hlt)

/-- Every interleaving of the calls is finite. -/
theorem terminates [DecidableEq α] (c : Config (List (Option α)) (Thread α)) :
    Terminates addInvokeInfoStep c :=
  terminates_of_measure (WellFounded.prod_lex Nat.lt_wfRel.wf Nat.lt_wfRel.wf) progressMeasure
    (fun _ _ => progressMeasure_lt) c

/-- A call that has not returned has a step. -/
theorem addInvokeInfoStep_isSome [DecidableEq α] (s : List (Option α)) {t : Thread α}
    (ht : t.pc ≠ .done) : (addInvokeInfoStep s t).isSome := by
  obtain ⟨cls, pc⟩ := t
  cases pc with
  | loop i =>
    simp only [addInvokeInfoStep]
    split_ifs
    · split
      · split_ifs <;> rfl
      · rfl
    · rfl
  | cas i =>
    simp only [addInvokeInfoStep]
    split_ifs <;> rfl
  | done => exact absurd rfl ht

/-- Where no call can step, every call has returned. -/
theorem done_of_terminal [DecidableEq α] {c : Config (List (Option α)) (Thread α)}
    (h : Terminal addInvokeInfoStep c) : ∀ t ∈ c.threads, t.pc = .done := by
  intro t ht
  by_contra hpc
  have hsome := addInvokeInfoStep_isSome c.shared hpc
  rw [h t ht] at hsome
  cases hsome

end Progress

section Interleavings

theorem add_invoke_info_interleavings [DecidableEq α] (entries : List (Option α))
    (classes : List α) (hinit : CacheInv entries) (c : Config (List (Option α)) (Thread α))
    (h : Reachable addInvokeInfoStep (start entries classes) c) :
    IsPrefix c.shared ∧ NoDuplicates c.shared ∧
      ((∀ t ∈ c.threads, t.pc = .done) →
        ∀ cls ∈ classes, some cls ∈ c.shared ∨ Megamorphic c.shared cls) ∧
      Terminates addInvokeInfoStep c ∧
      (∀ c', Reachable addInvokeInfoStep c c' → Terminal addInvokeInfoStep c' →
        ∀ t ∈ c'.threads, t.pc = .done) ∧
      ∃ c', Reachable addInvokeInfoStep c c' ∧ ∀ t ∈ c'.threads, t.pc = .done := by
  have hinv := inv_reachable hinit h
  have hreturned : (∀ t ∈ c.threads, t.pc = .done) →
      ∀ cls ∈ classes, some cls ∈ c.shared ∨ Megamorphic c.shared cls := by
    intro hdone cls hcls
    rw [← classes_reachable h] at hcls
    obtain ⟨t, ht, rfl⟩ := List.mem_map.1 hcls
    have hdone_t : t = ⟨t.cls, .done⟩ := by rw [← hdone t ht]
    have := hinv.thread t ht
    rw [hdone_t] at this
    exact this
  obtain ⟨c', hc', hterm⟩ := exists_terminal (terminates c)
  exact ⟨hinv.global.isPrefix, hinv.global.noDuplicates, hreturned, terminates c,
    fun _ _ => done_of_terminal, c', hc', done_of_terminal hterm⟩

/-- Two calls on an empty cache, the first run to its end before the second: both classes are
put in, and the calls have returned. -/
theorem add_invoke_info_interleavings_two_calls :
    ∃ c, Reachable addInvokeInfoStep (start (List.replicate kIndividualCacheSize none) [1, 2]) c ∧
      (∀ t ∈ c.threads, t.pc = .done) ∧
      ∀ cls ∈ [1, 2], some cls ∈ c.shared ∨ Megamorphic c.shared cls := by
  have hr : Reachable addInvokeInfoStep (start (List.replicate kIndividualCacheSize none) [1, 2])
      ⟨[some 1, some 2, none, none, none], [⟨1, .done⟩, ⟨2, .done⟩]⟩ :=
    reachable_of_run (show Transition.run (stepAt addInvokeInfoStep) _ [0, 0, 1, 1, 1] = some _
      from rfl)
  have hdone : ∀ t ∈ [(⟨1, .done⟩ : Thread Nat), ⟨2, .done⟩], t.pc = .done := by decide
  exact ⟨_, hr, hdone,
    (add_invoke_info_interleavings _ [1, 2] cacheInv_empty _ hr).2.2.1 hdone⟩

end Interleavings


end ProfilingInfo

end Art
