import HpDb.Containers

/-!
# Calls on a key-value cache, and the order of their keys' last use

The write-through cache of caching/write_through_cache.cpp, the LRU classes of
unnamed/part_010 and caching/tests/caching_tests.cpp and the LFU class of unnamed/part_009
share one interface, `int get(int key)` and `void put(int key, int value)`. A sequence of
calls is run on a cache by `runOps`, which collects what each `get` returns.

Over the calls, `recency` lists the keys by their last use, most recent first: each call,
`get` or `put`, moves its key to the front. `firstPut` and `lastPut` are the values of the
first and the last `put` of a key. They say what a call sequence did, independently of any
cache.

`runOps_sim` is the simulation lemma the refinements use: a relation between two caches
that each call keeps, with the same result, makes every run return the same results.
-/

namespace HpDb.Caching

/-- A call of the cache. -/
inductive Op where
  | put (key value : Int)
  | get (key : Int)
  deriving DecidableEq, Repr

/-- The key of a call. -/
def Op.key : Op → Int
  | .get key => key
  | .put key _ => key

/-- The keys in the order of their last use, most recent first. -/
def recency (keys : List Int) : List Int :=
  keys.foldl (fun r key => key :: r.filter (· ≠ key)) []

/-- The value of the first `put` of `key` in `ops`. -/
def firstPut : List Op → Int → Option Int
  | [], _ => none
  | .put k v :: ops, key => if k = key then some v else firstPut ops key
  | .get _ :: ops, key => firstPut ops key

/-- The value of the last `put` of `key` in `ops`. -/
def lastPut (ops : List Op) (key : Int) : Option Int := firstPut ops.reverse key

/-- The results of the calls `ops` on `s` (`some` for a `get`), and the final cache. -/
def runOps {σ : Type} (step : σ → Op → Option Int × σ) (s : σ) (ops : List Op) :
    List (Option Int) × σ :=
  ops.foldl (fun r op => ((r.1 ++ [(step r.2 op).1]), (step r.2 op).2)) ([], s)

theorem recency_append (keys : List Int) (key : Int) :
    recency (keys ++ [key]) = key :: (recency keys).filter (· ≠ key) := by
  rw [recency, List.foldl_append]; rfl

theorem nodup_recency (keys : List Int) : (recency keys).Nodup := by
  induction keys using List.reverseRecOn with
  | nil => exact List.nodup_nil
  | append_singleton keys key ih =>
    rw [recency_append]
    exact List.nodup_cons.mpr ⟨by simp, ih.filter _⟩

theorem lastPut_append (ops : List Op) (op : Op) (key : Int) :
    lastPut (ops ++ [op]) key = match op with
      | .put k value => if k = key then some value else lastPut ops key
      | .get _ => lastPut ops key := by
  rw [lastPut, List.reverse_append]
  cases op <;> rfl

theorem runOps_append {σ : Type} (step : σ → Op → Option Int × σ) (s : σ) (ops : List Op)
    (op : Op) : runOps step s (ops ++ [op]) =
      ((runOps step s ops).1 ++ [(step (runOps step s ops).2 op).1],
        (step (runOps step s ops).2 op).2) := by
  rw [runOps, List.foldl_append]; rfl

/-- A sublist of the keys by last use stays one when `key` is used: the other keys keep
    their order, and `key` goes first. -/
theorem sublist_recency_append {l keys : List Int} (h : l.Sublist (recency keys)) (key : Int) :
    (key :: l.filter (· ≠ key)).Sublist (recency (keys ++ [key])) := by
  rw [recency_append]
  exact (h.filter _).cons₂ key

/-- The same without `key` in front, for a list without `key`. -/
theorem sublist_recency_append_of_not_mem {l keys : List Int} (h : l.Sublist (recency keys))
    {key : Int} (hk : key ∉ l) : l.Sublist (recency (keys ++ [key])) := by
  have hl : l.filter (· ≠ key) = l := List.filter_eq_self.mpr fun x hx =>
    decide_eq_true fun hxk : x = key => hk (hxk ▸ hx)
  rw [recency_append, ← hl]
  exact (h.filter _).cons key

/-- The results of the calls `ops` on `s`, for a cache whose calls can have undefined
    behaviour (`none`). -/
def runOpsM {σ : Type} (step : σ → Op → Option (Option Int × σ)) (s : σ) (ops : List Op) :
    Option (List (Option Int) × σ) :=
  ops.foldlM (fun r op => (step r.2 op).map fun x => (r.1 ++ [x.1], x.2)) ([], s)

theorem runOpsM_append {σ : Type} (step : σ → Op → Option (Option Int × σ)) (s : σ)
    (ops : List Op) (op : Op) : runOpsM step s (ops ++ [op]) =
      (runOpsM step s ops).bind fun r => (step r.2 op).map fun x => (r.1 ++ [x.1], x.2) := by
  simp only [runOpsM, List.foldlM_append, List.foldlM_cons, List.foldlM_nil, bind_pure]; rfl

/-- The simulation lemma: a relation kept by every call, with the same result on both sides,
    gives the same results over every call sequence. -/
theorem runOps_sim {σ τ : Type} (step₁ : σ → Op → Option Int × σ) (step₂ : τ → Op → Option Int × τ)
    (R : List Op → σ → τ → Prop) {s : σ} {t : τ} (h₀ : R [] s t)
    (hstep : ∀ ops s t op, R ops s t →
      (step₁ s op).1 = (step₂ t op).1 ∧ R (ops ++ [op]) (step₁ s op).2 (step₂ t op).2)
    (ops : List Op) :
    (runOps step₁ s ops).1 = (runOps step₂ t ops).1 ∧
      R ops (runOps step₁ s ops).2 (runOps step₂ t ops).2 := by
  induction ops using List.reverseRecOn with
  | nil => exact ⟨rfl, h₀⟩
  | append_singleton ops op ih =>
    obtain ⟨hout, hR⟩ := hstep _ _ _ op ih.2
    rw [runOps_append, runOps_append, ih.1, hout]
    exact ⟨rfl, hR⟩

/-- The simulation lemma for a cache with undefined behaviour against a cache without, over
    at most `N` calls: the relation rules the undefined behaviour out while fewer than `N`
    calls have run. -/
theorem runOpsM_sim_of_length_le {σ τ : Type} (step₁ : σ → Op → Option (Option Int × σ))
    (step₂ : τ → Op → Option Int × τ) (R : List Op → σ → τ → Prop) {s : σ} {t : τ} (N : Nat)
    (h₀ : R [] s t)
    (hstep : ∀ ops s t op, ops.length < N → R ops s t → ∃ r, step₁ s op = some r ∧
      r.1 = (step₂ t op).1 ∧ R (ops ++ [op]) r.2 (step₂ t op).2)
    (ops : List Op) (hN : ops.length ≤ N) :
    ∃ r, runOpsM step₁ s ops = some r ∧ r.1 = (runOps step₂ t ops).1 ∧
      R ops r.2 (runOps step₂ t ops).2 := by
  induction ops using List.reverseRecOn with
  | nil => exact ⟨_, rfl, rfl, h₀⟩
  | append_singleton ops op ih =>
    rw [List.length_append, List.length_singleton] at hN
    obtain ⟨r, hr, hout, hR⟩ := ih (by omega)
    obtain ⟨x, hx, hxout, hxR⟩ := hstep _ _ _ op (by omega) hR
    refine ⟨(r.1 ++ [x.1], x.2), by rw [runOpsM_append, hr]; simp [hx], ?_, ?_⟩
    · rw [runOps_append, hout, hxout]
    · rw [runOps_append]; exact hxR

/-- The simulation lemma for a cache with undefined behaviour against a cache without: the
    relation rules the undefined behaviour out. -/
theorem runOpsM_sim {σ τ : Type} (step₁ : σ → Op → Option (Option Int × σ))
    (step₂ : τ → Op → Option Int × τ) (R : List Op → σ → τ → Prop) {s : σ} {t : τ}
    (h₀ : R [] s t)
    (hstep : ∀ ops s t op, R ops s t → ∃ r, step₁ s op = some r ∧
      r.1 = (step₂ t op).1 ∧ R (ops ++ [op]) r.2 (step₂ t op).2)
    (ops : List Op) :
    ∃ r, runOpsM step₁ s ops = some r ∧ r.1 = (runOps step₂ t ops).1 ∧
      R ops r.2 (runOps step₂ t ops).2 :=
  runOpsM_sim_of_length_le step₁ step₂ R ops.length h₀ (fun ops s t op _ => hstep ops s t op) ops
    le_rfl

end HpDb.Caching
