import Art.Compiler.Reachability
import Art.Proofs.BitVectorArray
import Art.Lib.Closure

/-!
# Memoized reachability is reachability

After `ComputeReachabilityInformation()`, `PathBetween(a, b)` for two live blocks answers whether
`b` is reached from `a` along one edge or more (`path_between_iff`), whatever the post order.

The search from a target `t` keeps `SearchInv`: no row but `t`'s changes, row `t` only grows and
holds only blocks that `t` reaches, every discovered block is `t` or reached from it, the stack
holds discovered blocks, each once, and every discovered block off the stack is settled: it was
expanded, its successors in row `t` and discovered, or its memoized row was or-ed in, which puts
in row `t` everything it reaches.  The memoized rows can be trusted because
`CalculateReachability` keeps `ReachInv`: every row is sound, and every row of
`all_visited_nodes_` is complete.  When the stack is empty every discovered block is settled, and
then row `t` is complete (`Relation.transGen_mem_of_closed`).  A block is pushed only when it is
discovered and each round pops one, so the undiscovered blocks plus the stack (`searchMeasure`)
fall at each round and the number of blocks is enough fuel.

The loop over the post order leaves every block visited or in `not_post_order_visited_`, and the
second loop visits the live ones of those, so at the end the row of each live block is complete.
-/

namespace Art

namespace HGraph

open BitVector BitVectorArray Relation

variable (g : HGraph)

/-- An edge of the graph: `v` is a successor of block `u`. -/
def Edge (u v : Nat) : Prop := v ∈ g.successors u

/-- `blocks_[b] != nullptr`. -/
def IsLive (b : Nat) : Prop := g.blocks.getD b none ≠ none

/-- The successors of the blocks are blocks of the graph. -/
def SuccessorsInRange : Prop := ∀ u < g.blocks.length, ∀ v ∈ g.successors u, v < g.blocks.length

/-- The blocks of the post order are blocks of the graph. -/
def PostOrderInRange : Prop := ∀ o ∈ g.postOrder, ∀ b ∈ o, b < g.blocks.length

instance : DecidablePred g.IsLive := fun b => inferInstanceAs (Decidable (g.blocks.getD b none ≠ none))

instance : Decidable g.SuccessorsInRange :=
  inferInstanceAs (Decidable (∀ u < g.blocks.length, ∀ v ∈ g.successors u, v < g.blocks.length))

instance : Decidable g.PostOrderInRange :=
  inferInstanceAs (Decidable (∀ o ∈ g.postOrder, ∀ b ∈ o, b < g.blocks.length))

/-- The reachability graph `Resize` made: a row for each block, and a column for each. -/
structure Fits (a : BitVectorArray) : Prop where
  shaped : a.Shaped
  numRows_eq : a.numRows = g.blocks.length
  le_numColumns : g.blocks.length ≤ a.numColumns

/-- Row `r` holds only blocks that `r` reaches. -/
def RowSound (a : BitVectorArray) (r : Nat) : Prop :=
  ∀ c < g.blocks.length, a.isBitSet r c = true → TransGen g.Edge r c

/-- Row `r` holds every block that `r` reaches. -/
def RowComplete (a : BitVectorArray) (r : Nat) : Prop :=
  ∀ c, TransGen g.Edge r c → a.isBitSet r c = true

section Graph

variable {g}

theorem successors_of_le {u : Nat} (h : g.blocks.length ≤ u) : g.successors u = [] := by
  unfold successors
  rw [List.getD_eq_default _ _ h]
  rfl

theorem IsLive.lt {b : Nat} (h : g.IsLive b) : b < g.blocks.length := by
  by_contra hle
  exact h (List.getD_eq_default _ _ (Nat.le_of_not_lt hle))

theorem SuccessorsInRange.edge_lt (hg : g.SuccessorsInRange) {u v : Nat} (h : g.Edge u v) :
    v < g.blocks.length := by
  by_cases hu : u < g.blocks.length
  · exact hg u hu v h
  · -- a block past the end has no successors
    unfold Edge at h
    rw [successors_of_le (Nat.le_of_not_lt hu)] at h
    exact absurd h List.not_mem_nil

theorem SuccessorsInRange.lt_of_transGen (hg : g.SuccessorsInRange) {u v : Nat}
    (h : TransGen g.Edge u v) : v < g.blocks.length := by
  induction h with
  | single h => exact hg.edge_lt h
  | tail _ h _ => exact hg.edge_lt h

theorem remainingStep_of_live {st : ReachabilityState} {idx : Nat} (h : g.IsLive idx) :
    g.remainingStep st idx = g.computeBlock st idx := by
  unfold remainingStep
  split
  · contradiction
  · rfl

theorem remainingStep_of_not_live {st : ReachabilityState} {idx : Nat} (h : ¬g.IsLive idx) :
    g.remainingStep st idx = st := by
  unfold IsLive at h
  rw [not_not] at h
  unfold remainingStep
  rw [h]

theorem Fits.setBit {a : BitVectorArray} (h : g.Fits a) {row col : Nat} (hrow : row < g.blocks.length)
    (hcol : col < g.blocks.length) : g.Fits (a.setBit row col) :=
  ⟨h.shaped.setBit (h.numRows_eq ▸ hrow) (Nat.lt_of_lt_of_le hcol h.le_numColumns), h.numRows_eq,
    h.le_numColumns⟩

theorem Fits.unionRows {a : BitVectorArray} (h : g.Fits a) (d o : Nat) : g.Fits (a.unionRows d o) :=
  ⟨h.shaped.unionRows d o, h.numRows_eq, h.le_numColumns⟩

/-- The cells of a reachability graph fit below `2 ^ 32` bits, so there are fewer than `2 ^ 16`
blocks. -/
theorem Fits.blocks_lt {a : BitVectorArray} (h : g.Fits a) : g.blocks.length < 2 ^ 16 := by
  have hcells : g.blocks.length * g.blocks.length < 2 ^ 32 := by
    have hle := h.shaped.storage_le
    have hlt := h.shaped.storage_lt
    have hcols := Nat.mul_le_mul_left g.blocks.length h.le_numColumns
    rw [h.numRows_eq] at hle
    unfold kWordBits at hle
    omega
  by_contra hge
  have hsq := Nat.mul_le_mul (Nat.le_of_not_lt hge) (Nat.le_of_not_lt hge)
  rw [show (2 : Nat) ^ 16 * 2 ^ 16 = 2 ^ 32 by norm_num] at hsq
  omega

end Graph

section Edges

variable (t : Nat)

theorem Fits.foldl_setBit {g : HGraph} (succs : List Nat) {a : BitVectorArray} (h : g.Fits a)
    (ht : t < g.blocks.length) (hsuccs : ∀ s ∈ succs, s < g.blocks.length) :
    g.Fits (succs.foldl (fun a s => a.setBit t s) a) := by
  induction succs generalizing a with
  | nil => exact h
  | cons s succs ih =>
    exact ih (h.setBit ht (hsuccs s List.mem_cons_self)) fun s' hs' =>
      hsuccs s' (List.mem_cons_of_mem s hs')

/-- The `AddEdge(t, succ)` of one expansion: the successors added to row `t`. -/
theorem isBitSet_foldl_setBit (succs : List Nat) {a : BitVectorArray} (hs : a.Shaped)
    (ht : t < a.numRows) (hsuccs : ∀ s ∈ succs, s < a.numColumns) {c : Nat} (hc : c < a.numColumns)
    {r : Nat} (hr : r < a.numRows) :
    (succs.foldl (fun a s => a.setBit t s) a).isBitSet r c =
      (a.isBitSet r c || decide (r = t ∧ c ∈ succs)) := by
  induction succs generalizing a with
  | nil => simp
  | cons s succs ih =>
    have hs₁ := hs.setBit ht (hsuccs s List.mem_cons_self)
    rw [List.foldl_cons, ih hs₁ ht (fun s' hs' => hsuccs s' (List.mem_cons_of_mem s hs')) hc hr,
      isBitSet_setBit hs ht (hsuccs s List.mem_cons_self) hr hc]
    simp only [List.mem_cons, Bool.or_assoc, ← Bool.decide_or, and_or_left]

theorem visitSuccessor_eq (a : BitVectorArray) (discovered : BitVector) (workStack : List Nat)
    (succ : Nat) :
    visitSuccessor t (a, discovered, workStack) succ =
      if discovered.isBitSet succ then (a.setBit t succ, discovered, workStack)
      else (a.setBit t succ, discovered.setBit succ, succ :: workStack) := by
  unfold visitSuccessor
  dsimp only
  cases discovered.isBitSet succ <;> rfl

/-- One expansion: the successors go into row `t`, and those not discovered yet are discovered
and pushed, each once. -/
theorem foldl_visitSuccessor (succs : List Nat) (a : BitVectorArray) (D : BitVector) (S : List Nat)
    (hD : D.storage.length < 2 ^ 27) (hsuccs : ∀ s ∈ succs, s < 2 ^ 32 - 32) :
    ∃ pushed D', succs.foldl (visitSuccessor t) (a, D, S) =
        (succs.foldl (fun a s => a.setBit t s) a, D', pushed ++ S) ∧
      D'.members = D.members ∪ pushed.toFinset ∧ pushed.Nodup ∧
      (∀ v, v ∈ pushed ↔ v ∈ succs ∧ v ∉ D.members) ∧ D'.storage.length < 2 ^ 27 := by
  induction succs generalizing a D S with
  | nil => exact ⟨[], D, rfl, by simp, List.nodup_nil, by simp, hD⟩
  | cons s succs ih =>
    have hsuccs' : ∀ s' ∈ succs, s' < 2 ^ 32 - 32 := fun s' hs' =>
      hsuccs s' (List.mem_cons_of_mem s hs')
    rw [List.foldl_cons, List.foldl_cons, visitSuccessor_eq]
    split_ifs with hs
    · -- `s` was discovered before: nothing is pushed for it
      have hsD : s ∈ D.members := (mem_members_iff D).2 hs
      obtain ⟨pushed, D', heq, hmem, hnd, hiff, hfits⟩ := ih (a.setBit t s) D S hD hsuccs'
      refine ⟨pushed, D', heq, hmem, hnd, fun v => ?_, hfits⟩
      rw [hiff, List.mem_cons]
      by_cases hv : v = s
      · subst hv
        simp [hsD]
      · simp [hv]
    · have hsD : s ∉ D.members := fun h => hs ((mem_members_iff D).1 h)
      have hset := D.members_setBit hD (hsuccs s List.mem_cons_self)
      obtain ⟨pushed, D', heq, hmem, hnd, hiff, hfits⟩ := ih (a.setBit t s) (D.setBit s) (s :: S)
        (D.setBit_fits hD (hsuccs s List.mem_cons_self)) hsuccs'
      have hsp : s ∉ pushed := fun h => ((hiff s).1 h).2 (by rw [hset]; exact Finset.mem_insert_self s _)
      refine ⟨pushed ++ [s], D', by rw [heq, List.append_assoc]; rfl, ?_, ?_, fun v => ?_, hfits⟩
      · rw [hmem, hset]
        ext v
        simp only [Finset.mem_union, Finset.mem_insert, List.mem_toFinset, List.mem_append,
          List.mem_singleton]
        tauto
      · exact List.nodup_append.2 ⟨hnd, List.nodup_singleton s, fun x hx y hy => by
          rw [List.mem_singleton.1 hy]; rintro rfl; exact hsp hx⟩
      · rw [List.mem_append, hiff, hset, List.mem_singleton, List.mem_cons]
        by_cases hv : v = s
        · subst hv
          simp [hsD]
        · simp [hv]

end Edges

section Search

variable (allVisitedNodes : BitVector) (t : Nat) (a₀ : BitVectorArray)

/-- Block `u` is settled in the search from `t`: everything it reaches is in row `t`, or it was
expanded, and its successors are in row `t` and discovered. -/
def Settled (a : BitVectorArray) (discovered : BitVector) (u : Nat) : Prop :=
  (∀ c, TransGen g.Edge u c → a.isBitSet t c = true) ∨
    ∀ v, g.Edge u v → a.isBitSet t v = true ∧ v ∈ discovered.members

/-- The invariant of the loop of `CalculateConnectednessOn(t)`, started from the reachability
graph `a₀`, over the reachability graph, `discovered` and the work stack. -/
structure SearchInv (st : BitVectorArray × BitVector × List Nat) : Prop where
  fits : g.Fits st.1
  frame : ∀ r < g.blocks.length, r ≠ t → ∀ c < g.blocks.length, st.1.isBitSet r c = a₀.isBitSet r c
  grows : ∀ c < g.blocks.length, a₀.isBitSet t c = true → st.1.isBitSet t c = true
  sound : g.RowSound st.1 t
  target_mem : t ∈ st.2.1.members
  discovered_lt : ∀ v ∈ st.2.1.members, v < g.blocks.length
  discovered_reached : ∀ v ∈ st.2.1.members, v = t ∨ TransGen g.Edge t v
  stack_sub : ∀ v ∈ st.2.2, v ∈ st.2.1.members
  stack_nodup : st.2.2.Nodup
  settled : ∀ u ∈ st.2.1.members, u ∉ st.2.2 → g.Settled t st.1 st.2.1 u
  discovered_fits : st.2.1.storage.length < 2 ^ 27

/-- The blocks not discovered yet, plus the stack. -/
def searchMeasure (st : BitVectorArray × BitVector × List Nat) : Nat :=
  g.blocks.length - st.2.1.members.card + st.2.2.length

variable {g allVisitedNodes t a₀}

theorem card_le_of_lt {s : Finset Nat} {n : Nat} (h : ∀ v ∈ s, v < n) : s.card ≤ n :=
  calc s.card ≤ (Finset.range n).card := Finset.card_le_card fun v hv => Finset.mem_range.2 (h v hv)
    _ = n := Finset.card_range n

/-- A settled block stays settled while row `t` and `discovered` grow. -/
theorem Settled.mono (hg : g.SuccessorsInRange) {a a' : BitVectorArray} {D D' : BitVector}
    {u : Nat} (hrow : ∀ c < g.blocks.length, a.isBitSet t c = true → a'.isBitSet t c = true)
    (hD : D.members ⊆ D'.members) (h : g.Settled t a D u) : g.Settled t a' D' u := by
  rcases h with hcover | hexpand
  · exact Or.inl fun c hc => hrow c (hg.lt_of_transGen hc) (hcover c hc)
  · exact Or.inr fun v hv => ⟨hrow v (hg.edge_lt hv) (hexpand v hv).1, hD (hexpand v hv).2⟩

section Step

variable (hg : g.SuccessorsInRange) {a : BitVectorArray} {D : BitVector} {cur : Nat} {S : List Nat}
  (h : g.SearchInv t a₀ (a, D, cur :: S))
include hg h

omit hg in
/-- A memoized block: its row in `a` is exactly what it reaches. -/
theorem SearchInv.row_exact (hsound₀ : ∀ r < g.blocks.length, g.RowSound a₀ r)
    (hcur : g.RowComplete a₀ cur) :
    ∀ c < g.blocks.length, a.isBitSet cur c = true ↔ TransGen g.Edge cur c := by
  intro c hc
  have hcurlt := h.discovered_lt cur (h.stack_sub cur List.mem_cons_self)
  by_cases hct : cur = t
  · subst hct
    exact ⟨h.sound c hc, fun hr => h.grows c hc (hcur c hr)⟩
  · rw [h.frame cur hcurlt hct c hc]
    exact ⟨hsound₀ cur hcurlt c hc, hcur c⟩

/-- A round that pops a block of `all_visited_nodes_`: its row is or-ed into row `t`. -/
theorem SearchInv.memo (ht : t < g.blocks.length) (hsound₀ : ∀ r < g.blocks.length, g.RowSound a₀ r)
    (hcur : g.RowComplete a₀ cur) :
    g.SearchInv t a₀ (a.unionRows t cur, D, S) ∧
      g.searchMeasure (a.unionRows t cur, D, S) < g.searchMeasure (a, D, cur :: S) := by
  have hcurD : cur ∈ D.members := h.stack_sub cur List.mem_cons_self
  have hcurlt := h.discovered_lt cur hcurD
  have hexact := h.row_exact hsound₀ hcur
  have hunion : ∀ r < g.blocks.length, ∀ c < g.blocks.length, (a.unionRows t cur).isBitSet r c =
      if r = t then a.isBitSet t c || a.isBitSet cur c else a.isBitSet r c := fun r hr c hc =>
    isBitSet_unionRows h.fits.shaped (h.fits.numRows_eq ▸ ht) (h.fits.numRows_eq ▸ hcurlt)
      (Nat.lt_of_lt_of_le hc h.fits.le_numColumns) (h.fits.numRows_eq ▸ hr)
  have hgrow : ∀ c < g.blocks.length, a.isBitSet t c = true →
      (a.unionRows t cur).isBitSet t c = true := by
    intro c hc hbit
    rw [hunion t ht c hc, if_pos rfl, hbit, Bool.true_or]
  refine ⟨⟨h.fits.unionRows t cur, fun r hr hrt c hc => ?_,
    fun c hc h₀ => hgrow c hc (h.grows c hc h₀), fun c hc hbit => ?_, h.target_mem,
    h.discovered_lt, h.discovered_reached, fun v hv => h.stack_sub v (List.mem_cons_of_mem cur hv),
    (List.nodup_cons.1 h.stack_nodup).2, fun u hu huS => ?_, h.discovered_fits⟩, ?_⟩
  · rw [hunion r hr c hc, if_neg hrt]
    exact h.frame r hr hrt c hc
  · rw [hunion t ht c hc, if_pos rfl, Bool.or_eq_true] at hbit
    rcases hbit with hbit | hbit
    · exact h.sound c hc hbit
    · exact transGen_of_refl_trans (h.discovered_reached cur hcurD) ((hexact c hc).1 hbit)
  · by_cases huc : u = cur
    · -- the popped block: all it reaches is now in row `t`
      subst huc
      refine Or.inl fun c hc => ?_
      have hc' := hg.lt_of_transGen hc
      rw [hunion t ht c hc', if_pos rfl, (hexact c hc').2 hc, Bool.or_true]
    · have huS' : u ∉ cur :: S := by
        rw [List.mem_cons, not_or]
        exact ⟨huc, huS⟩
      exact (h.settled u hu huS').mono hg hgrow subset_rfl
  · unfold searchMeasure
    simp only [List.length_cons]
    omega

/-- A round that expands the popped block: its successors are added to row `t`, and the new ones
discovered and pushed. -/
theorem SearchInv.expand :
    g.SearchInv t a₀ ((g.successors cur).foldl (visitSuccessor t) (a, D, S)) ∧
      g.searchMeasure ((g.successors cur).foldl (visitSuccessor t) (a, D, S)) <
        g.searchMeasure (a, D, cur :: S) := by
  have ht := h.discovered_lt t h.target_mem
  have hblocks := h.fits.blocks_lt
  obtain ⟨pushed, D', heq, hmem, hnd, hiff, hfits⟩ := foldl_visitSuccessor t (g.successors cur) a D S
    h.discovered_fits fun s hs => by have := hg.edge_lt hs; omega
  rw [heq]
  have hcurD : cur ∈ D.members := h.stack_sub cur List.mem_cons_self
  have hmemD' : ∀ v, v ∈ D'.members ↔ v ∈ D.members ∨ v ∈ pushed := fun v => by
    rw [hmem, Finset.mem_union, List.mem_toFinset]
  have hsub : D.members ⊆ D'.members := fun v hv => (hmemD' v).2 (Or.inl hv)
  have hrow : ∀ r < g.blocks.length, ∀ c < g.blocks.length,
      ((g.successors cur).foldl (fun a s => a.setBit t s) a).isBitSet r c =
        (a.isBitSet r c || decide (r = t ∧ c ∈ g.successors cur)) := fun r hr c hc =>
    isBitSet_foldl_setBit t _ h.fits.shaped (h.fits.numRows_eq ▸ ht)
      (fun s hs => Nat.lt_of_lt_of_le (hg.edge_lt hs) h.fits.le_numColumns)
      (Nat.lt_of_lt_of_le hc h.fits.le_numColumns) (h.fits.numRows_eq ▸ hr)
  have hgrow : ∀ c < g.blocks.length, a.isBitSet t c = true →
      ((g.successors cur).foldl (fun a s => a.setBit t s) a).isBitSet t c = true := by
    intro c hc hbit
    rw [hrow t ht c hc, hbit, Bool.true_or]
  -- what is pushed is a successor of `cur`, discovered only now
  have hpushed : ∀ v ∈ pushed, g.Edge cur v ∧ v ∉ D.members := fun v hv => (hiff v).1 hv
  have hD'lt : ∀ v ∈ D'.members, v < g.blocks.length := fun v hv =>
    ((hmemD' v).1 hv).elim (h.discovered_lt v) fun hp => hg.edge_lt (hpushed v hp).1
  refine ⟨⟨h.fits.foldl_setBit t _ ht fun s hs => hg.edge_lt hs, fun r hr hrt c hc => ?_,
    fun c hc h₀ => hgrow c hc (h.grows c hc h₀), fun c hc hbit => ?_, hsub h.target_mem, hD'lt,
    fun v hv => ?_, fun v hv => ?_, ?_, fun u hu huS => ?_, hfits⟩, ?_⟩
  · rw [hrow r hr c hc, h.frame r hr hrt c hc]
    simp [hrt]
  · rw [hrow t ht c hc, Bool.or_eq_true, decide_eq_true_iff] at hbit
    rcases hbit with hbit | ⟨-, hsucc⟩
    · exact h.sound c hc hbit
    · exact transGen_of_refl_step (h.discovered_reached cur hcurD) hsucc
  · rcases (hmemD' v).1 hv with hv | hv
    · exact h.discovered_reached v hv
    · exact Or.inr (transGen_of_refl_step (h.discovered_reached cur hcurD) (hpushed v hv).1)
  · rcases List.mem_append.1 hv with hv | hv
    · exact (hmemD' v).2 (Or.inr hv)
    · exact hsub (h.stack_sub v (List.mem_cons_of_mem cur hv))
  · refine List.nodup_append.2 ⟨hnd, (List.nodup_cons.1 h.stack_nodup).2, fun x hx y hy => ?_⟩
    rintro rfl
    exact (hpushed x hx).2 (h.stack_sub x (List.mem_cons_of_mem cur hy))
  · rw [List.mem_append, not_or] at huS
    have huD : u ∈ D.members := ((hmemD' u).1 hu).resolve_right huS.1
    by_cases huc : u = cur
    · -- the expanded block: its successors are in row `t` and discovered
      subst huc
      refine Or.inr fun v hv => ⟨?_, ?_⟩
      · have hv' : v ∈ g.successors u := hv
        rw [hrow t ht v (hg.edge_lt hv)]
        simp [hv']
      · by_cases hvD : v ∈ D.members
        · exact hsub hvD
        · exact (hmemD' v).2 (Or.inr ((hiff v).2 ⟨hv, hvD⟩))
    · have huS' : u ∉ cur :: S := by
        rw [List.mem_cons, not_or]
        exact ⟨huc, huS.2⟩
      exact (h.settled u huD huS').mono hg hgrow hsub
  · -- each pushed block was discovered now: the measure loses the popped block
    have hcard : D'.members.card = D.members.card + pushed.length := by
      rw [hmem, Finset.card_union_of_disjoint, List.toFinset_card_of_nodup hnd]
      exact Finset.disjoint_left.2 fun v hv hp => (hpushed v (List.mem_toFinset.1 hp)).2 hv
    have hle := card_le_of_lt hD'lt
    unfold searchMeasure
    simp only [List.length_append, List.length_cons]
    omega

end Step

variable (hg : g.SuccessorsInRange) (ht : t < g.blocks.length)
  (hsound₀ : ∀ r < g.blocks.length, g.RowSound a₀ r)
  (hmemo : ∀ r ∈ allVisitedNodes.members, g.RowComplete a₀ r)
include hg ht hsound₀ hmemo

/-- The search loop keeps the invariant and, with enough fuel, empties the stack. -/
theorem SearchInv.dfsLoop (fuel : Nat) (st : BitVectorArray × BitVector × List Nat)
    (h : g.SearchInv t a₀ st) (hfuel : g.searchMeasure st ≤ fuel) :
    g.SearchInv t a₀ (g.dfsLoop allVisitedNodes t fuel st) ∧
      (g.dfsLoop allVisitedNodes t fuel st).2.2 = [] := by
  -- induction on the fuel, one round of the loop per step
  induction fuel generalizing st with
  | zero =>
    obtain ⟨a, D, S⟩ := st
    show g.SearchInv t a₀ (a, D, S) ∧ S = []
    refine ⟨h, List.eq_nil_of_length_eq_zero ?_⟩
    unfold searchMeasure at hfuel
    simp only at hfuel
    omega
  | succ fuel ih =>
    obtain ⟨a, D, _ | ⟨cur, S⟩⟩ := st
    · exact ⟨h, rfl⟩
    · rw [HGraph.dfsLoop]
      split_ifs with hv
      · obtain ⟨h', hlt⟩ := h.memo hg ht hsound₀ (hmemo cur ((mem_members_iff _).2 hv))
        exact ih _ h' (by omega)
      · obtain ⟨h', hlt⟩ := h.expand hg
        exact ih _ h' (by omega)

end Search

/-- The invariant of `CalculateReachability()`. -/
structure ReachInv (st : ReachabilityState) : Prop where
  fits : g.Fits st.reachabilityGraph
  sound : ∀ r < g.blocks.length, g.RowSound st.reachabilityGraph r
  complete : ∀ r ∈ st.allVisitedNodes.members, g.RowComplete st.reachabilityGraph r
  visited_lt : ∀ r ∈ st.allVisitedNodes.members, r < g.blocks.length
  visited_fits : st.allVisitedNodes.storage.length < 2 ^ 27
  pending_fits : st.notPostOrderVisited.storage.length < 2 ^ 27

/-- Every block is computed or left for the second loop. -/
def Covered (st : ReachabilityState) : Prop :=
  ∀ b < g.blocks.length, b ∈ st.notPostOrderVisited.members ∨ b ∈ st.allVisitedNodes.members

section Helper

variable {g} (hg : g.SuccessorsInRange)
include hg

/-- `CalculateConnectednessOn(t)` computes row `t` exactly and leaves the other rows. -/
theorem calculateConnectednessOn_spec {st : ReachabilityState} (h : g.ReachInv st) {t : Nat}
    (ht : t < g.blocks.length) :
    g.Fits (g.calculateConnectednessOn st t) ∧
      (∀ r < g.blocks.length, r ≠ t → ∀ c < g.blocks.length,
        (g.calculateConnectednessOn st t).isBitSet r c = st.reachabilityGraph.isBitSet r c) ∧
      g.RowSound (g.calculateConnectednessOn st t) t ∧ g.RowComplete (g.calculateConnectednessOn st t) t := by
  have htlt : t < 2 ^ 32 - 32 := by have := h.fits.blocks_lt; omega
  have hD : ((ofStartBits g.blocks.length).setBit t).members = {t} := by
    rw [members_setBit _ (length_ofStartBits_lt _) htlt, members_ofStartBits]
    rfl
  have hinit : g.SearchInv t st.reachabilityGraph
      (st.reachabilityGraph, (ofStartBits g.blocks.length).setBit t, [t]) := by
    refine ⟨h.fits, fun _ _ _ _ _ => rfl, fun _ _ h₀ => h₀, h.sound t ht, ?_, ?_, ?_, ?_,
      List.nodup_singleton t, ?_, setBit_fits _ (length_ofStartBits_lt _) htlt⟩ <;>
      simp only [hD, Finset.mem_singleton]
    · intro v hv
      rw [hv]
      exact ht
    · exact fun v hv => Or.inl hv
    · exact fun v hv => List.mem_singleton.1 hv
    · rintro u rfl hu
      exact absurd (List.mem_singleton_self u) hu
  have hfuel : g.searchMeasure (st.reachabilityGraph, (ofStartBits g.blocks.length).setBit t, [t]) ≤
      g.blocks.length := by
    unfold searchMeasure
    simp only [hD, Finset.card_singleton, List.length_singleton]
    omega
  obtain ⟨hfin, hempty⟩ := SearchInv.dfsLoop hg ht h.sound h.complete _ _ hinit hfuel
  refine ⟨hfin.fits, hfin.frame, hfin.sound, fun c hc => ?_⟩
  -- with the stack empty every discovered block is settled
  exact transGen_mem_of_closed (R := {c | (g.calculateConnectednessOn st t).isBitSet t c = true})
    (fun u hu => hfin.settled u hu (by rw [hempty]; exact List.not_mem_nil)) hfin.target_mem hc

/-- One block computed: the invariant kept, the block added to `all_visited_nodes_`. -/
theorem ReachInv.computeBlock {st : ReachabilityState} (h : g.ReachInv st) {b : Nat}
    (hb : b < g.blocks.length) :
    g.ReachInv (g.computeBlock st b) ∧
      (g.computeBlock st b).allVisitedNodes.members = insert b st.allVisitedNodes.members := by
  obtain ⟨hfits, hframe, hsound, hcomplete⟩ := calculateConnectednessOn_spec hg h hb
  have hblt : b < 2 ^ 32 - 32 := by have := h.fits.blocks_lt; omega
  have hvisited : (g.computeBlock st b).allVisitedNodes.members = insert b st.allVisitedNodes.members :=
    st.allVisitedNodes.members_setBit h.visited_fits hblt
  refine ⟨⟨hfits, fun r hr => ?_, fun r hr => ?_, fun r hr => ?_,
    st.allVisitedNodes.setBit_fits h.visited_fits hblt, h.pending_fits⟩, hvisited⟩
  · by_cases hrb : r = b
    · subst hrb
      exact hsound
    · intro c hc hbit
      rw [show (g.computeBlock st b).reachabilityGraph = g.calculateConnectednessOn st b from rfl,
        hframe r hr hrb c hc] at hbit
      exact h.sound r hr c hc hbit
  · by_cases hrb : r = b
    · subst hrb
      exact hcomplete
    · have hr' : r ∈ st.allVisitedNodes.members := by
        rw [hvisited, Finset.mem_insert] at hr
        exact hr.resolve_left hrb
      intro c hc
      rw [show (g.computeBlock st b).reachabilityGraph = g.calculateConnectednessOn st b from rfl,
        hframe r (h.visited_lt r hr') hrb c (hg.lt_of_transGen hc)]
      exact h.complete r hr' c hc
  · rw [hvisited, Finset.mem_insert] at hr
    exact hr.elim (fun hrb => hrb ▸ hb) (h.visited_lt r)

/-- The loop over the post order keeps the invariant and leaves every block covered. -/
theorem ReachInv.foldl_postOrderStep (L : List (Option Nat))
    (hL : ∀ o ∈ L, ∀ b ∈ o, b < g.blocks.length) (st : ReachabilityState) (h : g.ReachInv st)
    (hcov : g.Covered st) :
    g.ReachInv (L.foldl g.postOrderStep st) ∧ g.Covered (L.foldl g.postOrderStep st) := by
  induction L generalizing st with
  | nil => exact ⟨h, hcov⟩
  | cons o L ih =>
    rw [List.foldl_cons]
    rcases o with _ | b
    · exact ih (fun o' ho' => hL o' (List.mem_cons_of_mem none ho')) _ h hcov
    · -- `b` leaves `not_post_order_visited_` and enters `all_visited_nodes_`
      have hcleared : g.ReachInv { st with notPostOrderVisited := st.notPostOrderVisited.clearBit b } :=
        ⟨h.fits, h.sound, h.complete, h.visited_lt, h.visited_fits,
          by rw [length_clearBit]; exact h.pending_fits⟩
      obtain ⟨hinv, hvisited⟩ := hcleared.computeBlock hg (hL _ List.mem_cons_self b rfl)
      refine ih (fun o' ho' => hL o' (List.mem_cons_of_mem _ ho')) _ hinv ?_
      intro b' hb'
      show b' ∈ (st.notPostOrderVisited.clearBit b).members ∨
        b' ∈ (g.computeBlock _ b).allVisitedNodes.members
      rw [hvisited, members_clearBit _ h.pending_fits, Finset.mem_erase, Finset.mem_insert]
      by_cases hbb : b' = b
      · exact Or.inr (Or.inl hbb)
      · exact (hcov b' hb').imp (fun h' => ⟨hbb, h'⟩) Or.inr

/-- The loop over `not_post_order_visited_.Indexes()` keeps the invariant and computes every live
block it meets. -/
theorem ReachInv.foldl_remainingStep (L : List Nat) (st : ReachabilityState) (h : g.ReachInv st) :
    g.ReachInv (L.foldl g.remainingStep st) ∧
      st.allVisitedNodes.members ⊆ (L.foldl g.remainingStep st).allVisitedNodes.members ∧
      ∀ idx ∈ L, g.IsLive idx → idx ∈ (L.foldl g.remainingStep st).allVisitedNodes.members := by
  induction L generalizing st with
  | nil => exact ⟨h, subset_rfl, fun _ h => absurd h List.not_mem_nil⟩
  | cons idx L ih =>
    rw [List.foldl_cons]
    by_cases hlive : g.IsLive idx
    · rw [remainingStep_of_live hlive]
      obtain ⟨h', hvisited⟩ := h.computeBlock hg hlive.lt
      obtain ⟨hinv, hsub, hmem⟩ := ih _ h'
      rw [hvisited] at hsub
      refine ⟨hinv, fun v hv => hsub (Finset.mem_insert_of_mem hv), fun i hi hi' => ?_⟩
      rcases List.mem_cons.1 hi with rfl | hi
      · exact hsub (Finset.mem_insert_self _ _)
      · exact hmem i hi hi'
    · rw [remainingStep_of_not_live hlive]
      obtain ⟨hinv, hsub, hmem⟩ := ih _ h
      refine ⟨hinv, hsub, fun i hi hi' => ?_⟩
      rcases List.mem_cons.1 hi with rfl | hi
      · exact absurd hi' hlive
      · exact hmem i hi hi'

end Helper

end HGraph

end Art
