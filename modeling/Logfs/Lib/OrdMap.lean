import Mathlib.Tactic
import Mathlib.Data.List.Pairwise

/-!
# Finite maps as descending lists

A finite map on a linear order, stored as its pairs from the greatest key to the
least.  The structure carries the order, so two maps with the same lookups are
equal, and the greatest key is the head of the list.
-/

namespace Logfs

/-- A finite map: its pairs, greatest key first. -/
@[ext] structure OrdMap (K V : Type) [LinearOrder K] where
  entries : List (K × V)
  sorted : entries.Pairwise fun a b => b.1 < a.1

namespace OrdMap

variable {K V : Type} [LinearOrder K] {m : OrdMap K V} {k k' : K} {v : V} {A B : List (K × V)}

def empty : OrdMap K V := ⟨[], List.Pairwise.nil⟩

/-- The value at a key. -/
def get (m : OrdMap K V) (k : K) : Option V :=
  (m.entries.find? fun e => e.1 = k).map Prod.snd

/-- The map with `k` bound to `v`. -/
def insert (m : OrdMap K V) (k : K) (v : V) : OrdMap K V where
  entries := m.entries.filter (fun e => k < e.1) ++ (k, v) :: m.entries.filter (fun e => e.1 < k)
  sorted := by
    refine List.pairwise_append.2 ⟨m.sorted.filter _, List.pairwise_cons.2
      ⟨fun e he => ?_, m.sorted.filter _⟩, fun a ha b hb => ?_⟩
    · simpa using (List.mem_filter.1 he).2
    · have ha := (List.mem_filter.1 ha).2
      rcases List.mem_cons.1 hb with rfl | hb
      · simpa using ha
      · have hb := (List.mem_filter.1 hb).2
        simp only [decide_eq_true_eq] at ha hb
        exact lt_trans hb ha

/-- The map without `k`. -/
def erase (m : OrdMap K V) (k : K) : OrdMap K V where
  entries := m.entries.filter fun e => e.1 ≠ k
  sorted := m.sorted.filter _

/-- The pair with the greatest key. -/
def last (m : OrdMap K V) : Option (K × V) := m.entries.head?

/-! ## Lookups -/

/-- A key occurs once. -/
theorem eq_of_mem {e e' : K × V} (he : e ∈ m.entries) (he' : e' ∈ m.entries) (h : e.1 = e'.1) :
    e = e' := by
  by_contra hne
  have hp : m.entries.Pairwise fun a b => a.1 ≠ b.1 := m.sorted.imp fun h => (ne_of_lt h).symm
  have : Std.Symm fun a b : K × V => a.1 ≠ b.1 := ⟨fun _ _ h => h.symm⟩
  exact hp.forall he he' hne h

theorem mem_entries : (k, v) ∈ m.entries ↔ m.get k = some v := by
  unfold get
  constructor
  · intro h
    cases hf : m.entries.find? fun e => e.1 = k with
    | none =>
      have := List.find?_eq_none.1 hf (k, v) h
      simp at this
    | some e =>
      have hk : e.1 = k := by simpa using List.find?_some hf
      rw [eq_of_mem (List.mem_of_find?_eq_some hf) h hk]
      rfl
  · intro h
    obtain ⟨e, hf, rfl⟩ := Option.map_eq_some_iff.1 h
    have hk : e.1 = k := by simpa using List.find?_some hf
    rw [← hk]
    exact List.mem_of_find?_eq_some hf

theorem get_eq_none : m.get k = none ↔ ∀ e ∈ m.entries, e.1 ≠ k := by
  simp [get]

@[simp] theorem get_empty : (empty : OrdMap K V).get k = none := rfl

theorem get_insert : (m.insert k v).get k' = if k' = k then some v else m.get k' := by
  split_ifs with h
  · subst h
    rw [← mem_entries]
    simp [insert]
  · refine Option.ext fun w => ?_
    rw [← mem_entries, ← mem_entries]
    simp only [insert, List.mem_append, List.mem_cons, List.mem_filter, Prod.mk.injEq,
      decide_eq_true_eq, h, false_and, false_or]
    constructor
    · rintro (h1 | h1) <;> exact h1.1
    · intro h1
      rcases lt_or_gt_of_ne h with h2 | h2
      · exact Or.inr ⟨h1, h2⟩
      · exact Or.inl ⟨h1, h2⟩

@[simp] theorem get_insert_self : (m.insert k v).get k = some v := by
  rw [get_insert, if_pos rfl]

theorem get_insert_of_ne (h : k' ≠ k) : (m.insert k v).get k' = m.get k' := by
  rw [get_insert, if_neg h]

/-- A new pair is one more pair. -/
theorem mem_insert (habs : m.get k = none) (e : K × V) :
    e ∈ (m.insert k v).entries ↔ e ∈ m.entries ∨ e = (k, v) := by
  obtain ⟨x, w⟩ := e
  rw [mem_entries, mem_entries, get_insert, Prod.mk.injEq]
  split_ifs with h
  · subst h
    simp [habs, eq_comm]
  · simp [h]

theorem get_erase : (m.erase k).get k' = if k' = k then none else m.get k' := by
  split_ifs with h
  · subst h
    rw [get_eq_none]
    simp [erase]
  · refine Option.ext fun w => ?_
    rw [← mem_entries, ← mem_entries]
    simp [erase, h]

/-- Maps with the same lookups are equal. -/
theorem ext_get {m' : OrdMap K V} (h : ∀ k, m.get k = m'.get k) : m = m' := by
  have hmem : ∀ e, e ∈ m.entries ↔ e ∈ m'.entries := fun ⟨k, v⟩ => by
    rw [mem_entries, mem_entries, h]
  have hnd : ∀ m : OrdMap K V, m.entries.Nodup := fun m =>
    m.sorted.imp fun hlt he => by rw [he] at hlt; exact lt_irrefl _ hlt
  have hp := (List.perm_ext_iff_of_nodup (hnd m) (hnd m')).2 hmem
  refine OrdMap.ext (hp.eq_of_pairwise (fun a b _ _ hab hba => ?_) m.sorted m'.sorted)
  exact absurd hab (lt_asymm hba)

/-- The second of two bindings of a key stays. -/
theorem insert_insert {v' : V} : (m.insert k v).insert k v' = m.insert k v' := by
  refine ext_get fun x => ?_
  rw [get_insert, get_insert, get_insert]
  split_ifs <;> rfl

/-! ## The pairs as a list -/

/-- A new key goes between the greater and the smaller ones. -/
theorem insert_entries (hm : m.entries = A ++ B) (hA : ∀ e ∈ A, k < e.1) (hB : ∀ e ∈ B, e.1 < k) :
    (m.insert k v).entries = A ++ (k, v) :: B := by
  simp only [insert, hm, List.filter_append]
  have h1 : A.filter (fun e => k < e.1) = A := List.filter_eq_self.2 (by simpa using hA)
  have h2 : B.filter (fun e => k < e.1) = [] :=
    List.filter_eq_nil_iff.2 fun e he => by simpa using le_of_lt (hB e he)
  have h3 : A.filter (fun e => e.1 < k) = [] :=
    List.filter_eq_nil_iff.2 fun e he => by simpa using le_of_lt (hA e he)
  have h4 : B.filter (fun e => e.1 < k) = B := List.filter_eq_self.2 (by simpa using hB)
  rw [h1, h2, h3, h4]
  simp

theorem erase_entries (hm : m.entries = A ++ (k, v) :: B) : (m.erase k).entries = A ++ B := by
  have hs := m.sorted
  rw [hm] at hs
  obtain ⟨-, hs, hAB⟩ := List.pairwise_append.1 hs
  have hA : ∀ e ∈ A, e.1 ≠ k := fun e he => ne_of_gt (hAB e he (k, v) (by simp))
  have hB : ∀ e ∈ B, e.1 ≠ k := fun e he => ne_of_lt ((List.pairwise_cons.1 hs).1 e he)
  simp only [erase, hm, List.filter_append, List.filter_cons]
  rw [List.filter_eq_self.2 (by simpa using hA), List.filter_eq_self.2 (by simpa using hB)]
  simp

/-! ## The greatest key -/

theorem last_eq_none : m.last = none ↔ ∀ k, m.get k = none := by
  simp only [last, List.head?_eq_none_iff]
  constructor
  · intro h k
    rw [get_eq_none, h]
    simp
  · intro h
    rw [List.eq_nil_iff_forall_not_mem]
    intro e he
    have := mem_entries.1 (show (e.1, e.2) ∈ m.entries from he)
    rw [h e.1] at this
    cases this

theorem last_eq_some (h : m.last = some (k, v)) :
    m.get k = some v ∧ ∀ k', m.get k' ≠ none → k' ≤ k := by
  obtain ⟨l, hl⟩ := List.head?_eq_some_iff.1 h
  have hs := m.sorted
  rw [hl] at hs
  refine ⟨mem_entries.1 (by rw [hl]; simp), fun k' hk' => ?_⟩
  obtain ⟨w, hw⟩ := Option.ne_none_iff_exists'.1 hk'
  have hmem := mem_entries.2 hw
  rw [hl] at hmem
  rcases List.mem_cons.1 hmem with he | he
  · rw [Prod.mk.injEq] at he
    exact le_of_eq he.1
  · exact le_of_lt ((List.pairwise_cons.1 hs).1 _ he)

theorem last_eq_none_iff_entries : m.last = none ↔ m.entries = [] := List.head?_eq_none_iff

/-- Without the greatest key there is one pair less. -/
theorem erase_last_length (h : m.last = some (k, v)) :
    (m.erase k).entries.length + 1 = m.entries.length := by
  obtain ⟨l, hl⟩ := List.head?_eq_some_iff.1 h
  rw [erase_entries (A := []) hl, hl]
  rfl

end OrdMap

end Logfs
