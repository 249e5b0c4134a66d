import HpDb.Locking.TransactionManager
import Mathlib.Logic.Relation

/-!
# `detectDeadlock` finds a cycle exactly when the wait-for graph has one

`dfs` is the depth-first search for a cycle: `rec_stack` holds the path from the node the
search started at, and meeting a node of it again closes a cycle. A search that returns
`false` leaves `rec_stack` as it found it, and leaves every node it visited finished: its
successors visited and off the stack, and the node on no cycle. `detectDeadlock` starts a
search at each key of the graph it has not visited, with one more unit of fuel than the
graph has entries. The fuel never runs out, since each level of the recursion below the
first starts at a key not visited before.

So the search is right for every graph and every iteration order of its maps. What
`detectDeadlock_misses_wait_cycle` shows wrong is the graph `acquireLock` builds.

Results:
* `detectDeadlock_iff`: `detectDeadlock` returns `true` exactly when the wait-for graph
  has a cycle.
-/

namespace HpDb.Locking

open Relation

/-- An edge of the wait-for graph: `u` is in the set of `t`. -/
def WaitEdge (g : SetMap) (t u : Int) : Prop := u ∈ (g.find? t).getD []

/-- The keys of the graph not visited, counted with their repeats. -/
def unvisited (g : SetMap) (visited : List Int) : Nat :=
  (g.map (·.1)).countP fun k => k ∉ visited

/-- Every node visited and off the stack is finished: its successors are visited and off
    the stack, and it lies on no cycle. -/
def Finished (g : SetMap) (visited recStack : List Int) : Prop :=
  ∀ x ∈ visited, x ∉ recStack →
    (∀ y, WaitEdge g x y → y ∈ visited ∧ y ∉ recStack) ∧ ¬ TransGen (WaitEdge g) x x

/-! ## The graph -/

theorem mem_keys_of_lookup {g : SetMap} {t : Int} {s : List Int} (h : g.lookup t = some s) :
    t ∈ g.map (·.1) := by
  obtain ⟨l₁, l₂, rfl, -⟩ := List.lookup_eq_some_iff.mp h
  exact List.mem_map_of_mem _ (List.mem_append_right _ (List.mem_cons_self _ _))

/-- Only a key of the graph has an edge out of it. -/
theorem mem_keys_of_waitEdge {g : SetMap} {t u : Int} (h : WaitEdge g t u) :
    t ∈ g.map (·.1) := by
  unfold WaitEdge SetMap.find? at h
  cases hl : g.lookup t with
  | none => simp [hl] at h
  | some s => exact mem_keys_of_lookup hl

theorem countP_lt_countP {l : List Int} {p q : Int → Bool} (hqp : ∀ x ∈ l, q x → p x)
    {a : Int} (ha : a ∈ l) (hp : p a) (hq : q a = false) : l.countP q < l.countP p := by
  induction l with
  | nil => cases ha
  | cons b l ih =>
    have hmono : l.countP q ≤ l.countP p :=
      List.countP_mono_left fun x hx => hqp x (List.mem_cons_of_mem _ hx)
    have hb := hqp b (List.mem_cons_self b l)
    simp only [List.countP_cons]
    rcases List.mem_cons.mp ha with rfl | ha
    · rw [if_pos hp, if_neg (by simp [hq])]; omega
    · have := ih (fun x hx => hqp x (List.mem_cons_of_mem _ hx)) ha
      by_cases hqb : q b
      · rw [if_pos hqb, if_pos (hb hqb)]; omega
      · rw [if_neg hqb]; split_ifs <;> omega

theorem unvisited_le {g : SetMap} {v v' : List Int} (h : v ⊆ v') :
    unvisited g v' ≤ unvisited g v :=
  List.countP_mono_left fun _ _ hk => by
    simp only [decide_eq_true_eq] at hk ⊢; exact fun hv => hk (h hv)

theorem unvisited_cons_lt {g : SetMap} {v : List Int} {u : Int} (hk : u ∈ g.map (·.1))
    (hu : u ∉ v) : unvisited g (u :: v) < unvisited g v :=
  countP_lt_countP (fun _ _ hx => by simp_all) hk (by simpa using hu) (by simp)

theorem unvisited_lt (g : SetMap) (v : List Int) : unvisited g v < g.length + 1 :=
  Nat.lt_succ_of_le ((List.countP_le_length _).trans (List.length_map _ _).le)

/-! ## `rec_stack` comes back as it was -/

theorem dfsEach_restore {f : Int → List Int → List Int → Bool × List Int × List Int}
    (hf : ∀ u v r v' r', f u v r = (false, v', r') → r' = r) :
    ∀ us v r v' r', dfsEach f us v r = (false, v', r') → r' = r
  | [], _, _, _, _, h => by cases h; rfl
  | u :: us, v, r, v', r', h => by
    rw [dfsEach] at h
    rcases hu : f u v r with ⟨_ | _, v₁, r₁⟩ <;> rw [hu] at h
    · exact (dfsEach_restore hf us v₁ r₁ v' r' h).trans (hf u v r v₁ r₁ hu)
    · cases h

/-- A search that returns `false` pops what it pushed. -/
theorem dfs_restore (g : SetMap) :
    ∀ fuel u v r v' r', dfs g fuel u v r = (false, v', r') → r' = r
  | 0, _, _, _, _, _, h => by cases h; rfl
  | fuel + 1, u, v, r, v', r', h => by
    rw [dfs] at h
    split_ifs at h
    · cases h
    · cases h; rfl
    · rcases he : dfsEach (dfs g fuel) ((g.find? u).getD []) (u :: v) (u :: r) with
        ⟨_ | _, v₂, r₂⟩ <;> rw [he] at h
      · cases h
        rw [dfsEach_restore (dfs_restore g fuel) _ _ _ _ _ he, List.erase_cons_head]
      · cases h

/-! ## Soundness: a `true` is a cycle -/

theorem dfsEach_sound {g : SetMap} {f : Int → List Int → List Int → Bool × List Int × List Int}
    (hres : ∀ u v r v' r', f u v r = (false, v', r') → r' = r)
    (hf : ∀ u v r v' r', f u v r = (true, v', r') →
      (∀ x ∈ r, TransGen (WaitEdge g) x u) → ∃ x, TransGen (WaitEdge g) x x) :
    ∀ us v r v' r', dfsEach f us v r = (true, v', r') →
      (∀ u ∈ us, ∀ x ∈ r, TransGen (WaitEdge g) x u) → ∃ x, TransGen (WaitEdge g) x x
  | [], _, _, _, _, h, _ => by cases h
  | u :: us, v, r, v', r', h, hr => by
    rw [dfsEach] at h
    rcases hu : f u v r with ⟨_ | _, v₁, r₁⟩ <;> rw [hu] at h
    · rw [hres u v r v₁ r₁ hu] at h
      exact dfsEach_sound hres hf us v₁ r v' r' h fun w hw => hr w (List.mem_cons_of_mem u hw)
    · exact hf u v r v₁ r₁ hu (hr u (List.mem_cons_self u us))

/-- Every node on the stack reaches the node searched from, so meeting it again closes a
    cycle. -/
theorem dfs_sound (g : SetMap) :
    ∀ fuel u v r v' r', dfs g fuel u v r = (true, v', r') →
      (∀ x ∈ r, TransGen (WaitEdge g) x u) → ∃ x, TransGen (WaitEdge g) x x
  | 0, _, _, _, _, _, h, _ => by cases h
  | fuel + 1, u, v, r, v', r', h, hr => by
    rw [dfs] at h
    split_ifs at h with hur
    · exact ⟨u, hr u hur⟩
    · cases h
    · rcases he : dfsEach (dfs g fuel) ((g.find? u).getD []) (u :: v) (u :: r) with
        ⟨_ | _, v₂, r₂⟩ <;> rw [he] at h
      · cases h
      · refine dfsEach_sound (dfs_restore g fuel) (dfs_sound g fuel) _ _ _ _ _ he
          fun y hy x hx => ?_
        rcases List.mem_cons.mp hx with rfl | hx
        · exact .single hy
        · exact .tail (hr x hx) hy

/-! ## Completeness: a `false` leaves every visited node finished -/

theorem Finished.reach {g : SetMap} {v r : List Int} (h : Finished g v r) {x y : Int}
    (hx : x ∈ v) (hxr : x ∉ r) (hxy : ReflTransGen (WaitEdge g) x y) : y ∈ v ∧ y ∉ r := by
  induction hxy with
  | refl => exact ⟨hx, hxr⟩
  | tail _ he ih => exact (h _ ih.1 ih.2).1 _ he

/-- Pushing an unvisited node keeps the finished nodes finished. -/
theorem Finished.push {g : SetMap} {v r : List Int} (h : Finished g v r) {u : Int}
    (hu : u ∉ v) : Finished g (u :: v) (u :: r) := by
  intro x hx hxr
  have hxv : x ∈ v := (List.mem_cons.mp hx).resolve_left fun e => hxr (e ▸ List.mem_cons_self _ _)
  obtain ⟨hs, hc⟩ := h x hxv fun h' => hxr (List.mem_cons_of_mem _ h')
  refine ⟨fun y hy => ?_, hc⟩
  obtain ⟨hyv, hyr⟩ := hs y hy
  exact ⟨List.mem_cons_of_mem _ hyv, fun h' => (List.mem_cons.mp h').elim
    (fun e => hu (e ▸ hyv)) hyr⟩

/-- Popping a node whose successors are all finished finishes it: a cycle through it would
    run through a finished successor and come back to a node still on the stack. -/
theorem Finished.pop {g : SetMap} {v r : List Int} {u : Int} (h : Finished g v (u :: r))
    (hsucc : ∀ y, WaitEdge g u y → y ∈ v ∧ y ∉ u :: r) : Finished g v r := by
  have hoff : ∀ {y : Int}, y ∉ u :: r → y ∉ r := fun hy h' => hy (List.mem_cons_of_mem _ h')
  intro x hx hxr
  by_cases hxu : x = u
  · subst hxu
    refine ⟨fun y hy => ⟨(hsucc y hy).1, hoff (hsucc y hy).2⟩, fun hc => ?_⟩
    obtain ⟨y, hy, hyx⟩ := TransGen.head'_iff.mp hc
    exact (h.reach (hsucc y hy).1 (hsucc y hy).2 hyx).2 (List.mem_cons_self _ _)
  · obtain ⟨hs, hc⟩ := h x hx (by simp [hxu, hxr])
    exact ⟨fun y hy => ⟨(hs y hy).1, hoff (hs y hy).2⟩, hc⟩

theorem dfsEach_finished {g : SetMap} {fuel : Nat}
    {f : Int → List Int → List Int → Bool × List Int × List Int}
    (hres : ∀ u v r v' r', f u v r = (false, v', r') → r' = r)
    (hf : ∀ u v r v' r', f u v r = (false, v', r') → unvisited g v < fuel → Finished g v r →
      Finished g v' r ∧ v ⊆ v' ∧ u ∈ v' ∧ u ∉ r) :
    ∀ us v r v' r', dfsEach f us v r = (false, v', r') → unvisited g v < fuel →
      Finished g v r → Finished g v' r ∧ v ⊆ v' ∧ ∀ u ∈ us, u ∈ v' ∧ u ∉ r
  | [], _, _, _, _, h, _, hfin => by cases h; exact ⟨hfin, List.Subset.refl _, by simp⟩
  | u :: us, v, r, v', r', h, hfuel, hfin => by
    rw [dfsEach] at h
    rcases hu : f u v r with ⟨_ | _, v₁, r₁⟩ <;> rw [hu] at h
    · rw [hres u v r v₁ r₁ hu] at h hu
      obtain ⟨hfin₁, hsub₁, hu₁, hur⟩ := hf u v r v₁ r hu hfuel hfin
      obtain ⟨hfin', hsub', hall⟩ := dfsEach_finished hres hf us v₁ r v' r' h
        ((unvisited_le hsub₁).trans_lt hfuel) hfin₁
      refine ⟨hfin', fun x hx => hsub' (hsub₁ hx), fun w hw => ?_⟩
      rcases List.mem_cons.mp hw with rfl | hw
      · exact ⟨hsub' hu₁, hur⟩
      · exact hall w hw
    · cases h

/-- A search that returns `false`, with enough fuel, leaves every visited node finished, the
    node it started from among them. -/
theorem dfs_finished (g : SetMap) :
    ∀ fuel u v r v' r', dfs g fuel u v r = (false, v', r') → unvisited g v < fuel →
      Finished g v r → Finished g v' r ∧ v ⊆ v' ∧ u ∈ v' ∧ u ∉ r
  | 0, _, _, _, _, _, _, hfuel, _ => absurd hfuel (Nat.not_lt_zero _)
  | fuel + 1, u, v, r, v', r', h, hfuel, hfin => by
    rw [dfs] at h
    split_ifs at h with hur huv
    · cases h
    · cases h; exact ⟨hfin, List.Subset.refl _, huv, hur⟩
    · rcases he : dfsEach (dfs g fuel) ((g.find? u).getD []) (u :: v) (u :: r) with
        ⟨_ | _, v₂, r₂⟩ <;> rw [he] at h
      · have hr₂ := dfsEach_restore (dfs_restore g fuel) _ _ _ _ _ he
        subst hr₂
        simp only [Prod.mk.injEq, true_and] at h
        obtain ⟨rfl, rfl⟩ := h
        have hloop : Finished g v₂ (u :: r) ∧ u :: v ⊆ v₂ ∧
            ∀ y ∈ (g.find? u).getD [], y ∈ v₂ ∧ y ∉ u :: r := by
          by_cases hk : u ∈ g.map (·.1)
          · exact dfsEach_finished (dfs_restore g fuel) (dfs_finished g fuel) _ _ _ _ _ he
              (by have := unvisited_cons_lt hk huv; omega) (hfin.push huv)
          · have hnil : (g.find? u).getD [] = [] :=
              List.eq_nil_iff_forall_not_mem.mpr fun y hy => hk (mem_keys_of_waitEdge hy)
            rw [hnil] at he ⊢
            cases he
            exact ⟨hfin.push huv, List.Subset.refl _, by simp⟩
        obtain ⟨hfin₂, hsub₂, hsucc⟩ := hloop
        exact ⟨hfin₂.pop hsucc, fun x hx => hsub₂ (List.mem_cons_of_mem _ hx),
          hsub₂ (List.mem_cons_self _ _), hur⟩
      · cases h

/-! ## The loop of `detectDeadlock` -/

theorem detectDeadlockFrom_sound (g : SetMap) (fuel : Nat) :
    ∀ entries v, detectDeadlockFrom g fuel entries v [] = true →
      ∃ x, TransGen (WaitEdge g) x x
  | [], _, h => by cases h
  | (t, _) :: entries, v, h => by
    rw [detectDeadlockFrom] at h
    by_cases ht : t ∈ v
    · rw [if_neg (not_not_intro ht)] at h
      exact detectDeadlockFrom_sound g fuel entries v h
    · rw [if_pos ht] at h
      rcases hd : dfs g fuel t v [] with ⟨_ | _, v₁, r₁⟩ <;> rw [hd] at h
      · rw [dfs_restore g fuel t v [] v₁ r₁ hd] at h
        exact detectDeadlockFrom_sound g fuel entries v₁ h
      · exact dfs_sound g fuel t v [] v₁ r₁ hd (by simp)

theorem detectDeadlockFrom_finished (g : SetMap) :
    ∀ entries v, detectDeadlockFrom g (g.length + 1) entries v [] = false → Finished g v [] →
      ∃ v', Finished g v' [] ∧ v ⊆ v' ∧ ∀ e ∈ entries, e.1 ∈ v'
  | [], v, _, hfin => ⟨v, hfin, List.Subset.refl _, by simp⟩
  | (t, _) :: entries, v, h, hfin => by
    rw [detectDeadlockFrom] at h
    by_cases ht : t ∈ v
    · rw [if_neg (not_not_intro ht)] at h
      obtain ⟨v', hfin', hsub', hall⟩ := detectDeadlockFrom_finished g entries v h hfin
      refine ⟨v', hfin', hsub', fun e he => ?_⟩
      rcases List.mem_cons.mp he with rfl | he
      · exact hsub' ht
      · exact hall e he
    · rw [if_pos ht] at h
      rcases hd : dfs g (g.length + 1) t v [] with ⟨_ | _, v₁, r₁⟩ <;> rw [hd] at h
      · rw [dfs_restore g _ t v [] v₁ r₁ hd] at h hd
        obtain ⟨hfin₁, hsub₁, ht₁, -⟩ := dfs_finished g _ t v [] v₁ [] hd (unvisited_lt g v) hfin
        obtain ⟨v', hfin', hsub', hall⟩ := detectDeadlockFrom_finished g entries v₁ h hfin₁
        refine ⟨v', hfin', fun x hx => hsub' (hsub₁ hx), fun e he => ?_⟩
        rcases List.mem_cons.mp he with rfl | he
        · exact hsub' ht₁
        · exact hall e he
      · cases h

/-- **`detectDeadlock` is a cycle check.** It returns `true` exactly when the wait-for graph
    has a cycle, whatever the graph and the iteration order of its maps. -/
theorem detectDeadlock_iff (tm : TransactionManager) :
    tm.detectDeadlock = true ↔ ∃ t, TransGen (WaitEdge tm.waitForGraph) t t := by
  refine ⟨detectDeadlockFrom_sound _ _ _ _, fun ⟨t, ht⟩ => ?_⟩
  by_contra hf
  obtain ⟨v', hfin, -, hall⟩ := detectDeadlockFrom_finished tm.waitForGraph _ []
    (Bool.not_eq_true _ ▸ hf) fun _ h => absurd h (List.not_mem_nil _)
  obtain ⟨y, hy, -⟩ := TransGen.head'_iff.mp ht
  obtain ⟨e, he, rfl⟩ := List.mem_map.mp (mem_keys_of_waitEdge hy)
  exact (hfin _ (hall e he) (List.not_mem_nil _)).2 ht

end HpDb.Locking
