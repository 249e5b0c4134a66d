import Mathlib.Data.List.Nodup

/-!
# `std::unordered_map` and `std::list`

The models keep a `std::unordered_map<int, V>` as the list of its entries, each key once:
`lookup` is `find`, `filter` on the key is `erase`, and `assign` is `m[key] = value`. A
`std::list` whose iterators are kept elsewhere is the list of its nodes, each with the id
of its iterator; erasing an iterator is filtering its id out.

The lemmas are the ones every model needs: what `lookup` and membership see after each
operation, and, for a list whose ids and keys are both distinct, that an iterator and a key
name the same node.
-/

namespace HpDb

variable {β : Type}

/-- `m[key]` changed by `f` on a key of `m`. -/
def modify (m : List (Int × β)) (key : Int) (f : β → β) : List (Int × β) :=
  m.map fun e => if e.1 = key then (key, f e.2) else e

/-- `m[key] = value`. -/
def assign (m : List (Int × β)) (key : Int) (value : β) : List (Int × β) :=
  if (m.lookup key).isSome then modify m key fun _ => value else m ++ [(key, value)]

theorem lookup_modify (m : List (Int × β)) (key : Int) (f : β → β) (k : Int) :
    (modify m key f).lookup k = if k = key then (m.lookup key).map f else m.lookup k := by
  induction m with
  | nil => split_ifs <;> rfl
  | cons e m ih =>
    obtain ⟨a, b⟩ := e
    simp only [modify, List.map_cons] at ih ⊢
    by_cases ha : a = key
    · subst ha
      simp only [if_true, List.lookup_cons, ih]
      cases h : k == a <;> simp_all
    · simp only [ha, if_false, List.lookup_cons, ih]
      cases h : k == a <;> cases h' : key == a <;> simp_all

theorem keys_modify (m : List (Int × β)) (key : Int) (f : β → β) :
    (modify m key f).map (·.1) = m.map (·.1) := by
  simp only [modify, List.map_map]
  exact List.map_congr_left fun e _ => by by_cases h : e.1 = key <;> simp [h]

theorem lookup_filter_ne (m : List (Int × β)) (key k : Int) :
    (m.filter (·.1 ≠ key)).lookup k = if k = key then none else m.lookup k := by
  induction m with
  | nil => split_ifs <;> rfl
  | cons e m ih =>
    obtain ⟨a, b⟩ := e
    by_cases ha : a = key
    · subst ha
      rw [List.filter_cons_of_neg (by simp), ih, List.lookup_cons]
      cases h : k == a <;> simp_all
    · rw [List.filter_cons_of_pos (by simpa using ha), List.lookup_cons, List.lookup_cons, ih]
      cases h : k == a <;> simp_all

theorem lookup_map_value {γ : Type} (m : List (Int × β)) (f : β → γ) (k : Int) :
    (m.map fun e => (e.1, f e.2)).lookup k = (m.lookup k).map f := by
  induction m with
  | nil => rfl
  | cons e m ih =>
    obtain ⟨a, b⟩ := e
    simp only [List.map_cons, List.lookup_cons, ih]
    cases k == a <;> rfl

theorem mem_of_lookup {α : Type} [DecidableEq α] {m : List (α × β)} {k : α} {v : β}
    (h : m.lookup k = some v) : (k, v) ∈ m := by
  obtain ⟨l₁, l₂, hl, -⟩ := List.lookup_eq_some_iff.mp h
  simp [hl]

theorem lookup_of_mem {α : Type} [DecidableEq α] {m : List (α × β)} (hnd : (m.map (·.1)).Nodup)
    {k : α} {v : β} (h : (k, v) ∈ m) : m.lookup k = some v := by
  induction m with
  | nil => exact absurd h (List.not_mem_nil _)
  | cons e m ih =>
    obtain ⟨a, b⟩ := e
    rw [List.map_cons, List.nodup_cons] at hnd
    rcases List.mem_cons.mp h with h | h
    · cases h; exact List.lookup_cons_self
    · have hne : k ≠ a := fun he => hnd.1 (he ▸ List.mem_map_of_mem (·.1) h)
      rw [List.lookup_cons, beq_eq_false_iff_ne.mpr hne]
      exact ih hnd.2 h

theorem lookup_eq_none_iff {m : List (Int × β)} {k : Int} : m.lookup k = none ↔ k ∉ m.map (·.1) := by
  simp only [List.lookup_eq_none_iff, List.mem_map, bne_iff_ne, ne_eq, not_exists, not_and]
  exact ⟨fun h p hp hk => h p hp hk.symm, fun h p hp hk => h p hp hk.symm⟩

theorem lookup_append_of_not_mem {m : List (Int × β)} {key : Int} (hkey : key ∉ m.map (·.1))
    (value : β) (k : Int) :
    (m ++ [(key, value)]).lookup k = if k = key then some value else m.lookup k := by
  rw [List.lookup_append]
  by_cases hk : k = key
  · subst hk; simp [lookup_eq_none_iff.mpr hkey]
  · have : (k == key) = false := beq_eq_false_iff_ne.mpr hk
    simp [hk, List.lookup_cons, this]

theorem mem_modify {m : List (Int × β)} {key : Int} {f : β → β} {k : Int} {x : β} :
    (k, x) ∈ modify m key f ↔ (k = key ∧ ∃ y, (key, y) ∈ m ∧ x = f y) ∨ (k ≠ key ∧ (k, x) ∈ m) := by
  simp only [modify, List.mem_map]
  constructor
  · rintro ⟨⟨a, b⟩, hab, he⟩
    by_cases ha : a = key
    · simp only [ha, if_true, Prod.mk.injEq] at he
      exact .inl ⟨he.1.symm, b, ha ▸ hab, he.2.symm⟩
    · simp only [ha, if_false, Prod.mk.injEq] at he
      exact .inr ⟨he.1 ▸ ha, he.1 ▸ he.2 ▸ hab⟩
  · rintro (⟨rfl, y, hy, rfl⟩ | ⟨hk, hx⟩)
    · exact ⟨(k, y), hy, by simp⟩
    · exact ⟨(k, x), hx, by simp [hk]⟩

theorem assign_of_not_mem {m : List (Int × β)} {key : Int} (hkey : key ∉ m.map (·.1))
    (value : β) : assign m key value = m ++ [(key, value)] := by
  rw [assign, lookup_eq_none_iff.mpr hkey]; rfl

theorem mem_assign_of_not_mem {m : List (Int × β)} {key : Int} (hkey : key ∉ m.map (·.1))
    (value : β) {k : Int} {x : β} : (k, x) ∈ assign m key value ↔ (k = key ∧ x = value) ∨ (k, x) ∈ m := by
  rw [assign_of_not_mem hkey]
  simp [or_comm]

/-- `modify` on a key with one entry. -/
theorem mem_modify_of_lookup {m : List (Int × β)} (hnd : (m.map (·.1)).Nodup) {key : Int} {y : β}
    (hl : m.lookup key = some y) (f : β → β) {k : Int} {x : β} :
    (k, x) ∈ modify m key f ↔ (k = key ∧ x = f y) ∨ (k ≠ key ∧ (k, x) ∈ m) := by
  rw [mem_modify]
  have hy : ∀ y', (key, y') ∈ m ↔ y' = y := fun y' =>
    ⟨fun h => Option.some.inj ((lookup_of_mem hnd h).symm.trans hl), fun h => h ▸ mem_of_lookup hl⟩
  simp [hy]

/-- Dropping the back of a list whose keys are distinct drops the entries with the key of the
    back. -/
theorem mem_dropLast_iff {α : Type} (key : α → Int) {l : List α} (hnd : (l.map key).Nodup)
    {back : α} (hback : l.getLast? = some back) {x : α} :
    x ∈ l.dropLast ↔ x ∈ l ∧ key x ≠ key back := by
  have hl := List.dropLast_append_getLast? back hback
  rw [← hl, List.map_append, List.map_singleton, List.nodup_append] at hnd
  constructor
  · intro hx
    refine ⟨hl ▸ List.mem_append_left _ hx, fun he => ?_⟩
    exact hnd.2.2 (List.mem_map_of_mem key hx) (List.mem_singleton.mpr he)
  · rintro ⟨hx, hne⟩
    rw [← hl] at hx
    rcases List.mem_append.mp hx with hx | hx
    · exact hx
    · exact absurd (congrArg key (List.mem_singleton.mp hx)) hne

/-- In a list whose keys are distinct, dropping the back drops the entries with its key. -/
theorem dropLast_eq_filter {α : Type} (key : α → Int) {l : List α} (hnd : (l.map key).Nodup)
    {back : α} (hback : l.getLast? = some back) : l.dropLast = l.filter (key · ≠ key back) := by
  have hkeep : l.dropLast.filter (key · ≠ key back) = l.dropLast :=
    List.filter_eq_self.mpr fun x hx => decide_eq_true ((mem_dropLast_iff key hnd hback).mp hx).2
  conv_rhs => rw [← List.dropLast_append_getLast? back hback]
  rw [List.filter_append, hkeep]
  simp

/-- In a `std::list` whose nodes have distinct ids and distinct keys, erasing the iterator of
    the node of `k` is erasing the node of `k`. -/
theorem filter_id_eq_filter_key {α : Type} (key : α → Int) {nodes : List (Nat × α)}
    (hids : (nodes.map (·.1)).Nodup) (hkeys : (nodes.map (key ·.2)).Nodup) {it : Nat} {a : α}
    (h : (it, a) ∈ nodes) : nodes.filter (·.1 ≠ it) = nodes.filter (key ·.2 ≠ key a) := by
  refine List.filter_congr fun n hn => ?_
  have hid : n.1 = it ↔ key n.2 = key a :=
    ⟨fun hn' => by rw [List.inj_on_of_nodup_map hids hn h hn'],
      fun hk => by rw [List.inj_on_of_nodup_map hkeys hn h hk]⟩
  simp [hid]

end HpDb
