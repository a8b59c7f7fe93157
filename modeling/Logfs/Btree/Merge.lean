import Logfs.Btree.Failed

/-!
# Merging two trees

`btree_merge` moves the pairs of the victim to the target, greatest key first,
through `btree_last`, `btree_lookup`, `btree_insert` and `btree_remove`.  When an
insertion runs out of memory the pairs moved so far stay in the target and the
others in the victim.
-/

namespace Logfs.Btree

/-- The two trees, with the nodes of each in a memory of its own. -/
structure Trees where
  target : Tree
  victim : Tree

abbrev MergeM := EStateM Stop Trees

def onTarget {α : Type} (m : TreeM α) : MergeM α := fun s =>
  match m s.target with
  | .ok a t => .ok a { s with target := t }
  | .error e t => .error e { s with target := t }

def onVictim {α : Type} (m : TreeM α) : MergeM α := fun s =>
  match m s.victim with
  | .ok a t => .ok a { s with victim := t }
  | .error e t => .error e { s with victim := t }

/-- The loop of `btree_merge`; `turns` bounds it. -/
def btreeMergeLoop (geo : Geo) : Nat → MergeM Int
  | 0 => throw .fuel
  | turns + 1 => do
    match ← onVictim (btreeLast geo) with
    | none => pure 0
    | some key => do
      let val ← onVictim (btreeLookup geo key)
      let k ← onVictim (readKey geo key)
      let err ← onTarget (btreeInsert geo (.ext k) val)
      if err ≠ 0 then pure err
      else do
        -- a copy, as the original gets mangled inside `btree_remove`
        let duplicate ← onVictim (readKey geo key)
        let _ ← onVictim (btreeRemove geo (.ext duplicate))
        btreeMergeLoop geo turns

/-- `btree_merge` of two different trees.  The fields of the victim are copied over to an empty
target, which gets its nodes with them. -/
def btreeMerge (geo : Geo) (turns : Nat) : MergeM Int := do
  let s ← get
  if s.target.node = 0 then do
    set (Trees.mk { s.victim with fails := s.target.fails } (btreeInit s.victim.fails))
    pure 0
  else btreeMergeLoop geo turns

section Rules

variable {α : Type} {m : TreeM α} {Q : α → Trees → Prop} {E : Stop → Trees → Prop} {s : Trees}

theorem wp_onTarget : Wp (onTarget m) Q E s ↔
    Wp m (fun a t => Q a { s with target := t }) (fun e t => E e { s with target := t })
      s.target := by
  unfold Wp onTarget
  cases m s.target <;> rfl

theorem wp_onVictim : Wp (onVictim m) Q E s ↔
    Wp m (fun a t => Q a { s with victim := t }) (fun e t => E e { s with victim := t })
      s.victim := by
  unfold Wp onVictim
  cases m s.victim <;> rfl

end Rules

/-! ## The loop -/

section Loop

variable {geo : Geo} {s : Trees} {mt mv mt' mv' : OrdMap Key Nat} {n : Nat}

/-- The first `n` pairs of the victim have moved to the target. -/
structure Moved (geo : Geo) (mt mv : OrdMap Key Nat) (n : Nat) (s : Trees)
    (mt' mv' : OrdMap Key Nat) : Prop where
  target : Stores geo s.target mt'
  victim : Stores geo s.victim mv'
  left : mv'.entries = mv.entries.drop n
  moved : ∀ e, e ∈ mt'.entries ↔ e ∈ mt.entries ∨ e ∈ mv.entries.take n

/-- The loop moves the greatest pair and goes on with the others. -/
theorem btreeMergeLoop_spec (hgeo : geo.Ok) : ∀ (turns : Nat) {s : Trees}
    {mt mv : OrdMap Key Nat}, Stores geo s.target mt → Stores geo s.victim mv →
      (∀ e ∈ mv.entries, mt.get e.1 = none) → mv.entries.length < turns →
      Runs (btreeMergeLoop geo turns) (fun err s' => ∃ n mt' mv', Moved geo mt mv n s' mt' mv' ∧
        (err = 0 ∧ mv.entries.length ≤ n ∨ err = -ENOMEM)) s := by
  intro turns
  induction turns with
  | zero => exact fun _ _ _ hlen => absurd hlen (Nat.not_lt_zero _)
  | succ turns ih =>
    intro s mt mv ht hv hdis hlen
    unfold btreeMergeLoop
    rw [Runs, wp_bind, wp_onVictim]
    refine (btreeLast_spec hv).imp ?_
    rintro (_ | key) _ ⟨rfl, hlast⟩
    · have hnil : mv.entries = [] := List.head?_eq_none_iff.1 hlast
      exact ⟨0, mt, mv, ⟨ht, hv, by simp, by simp⟩, Or.inl ⟨rfl, by simp [hnil]⟩⟩
    · obtain ⟨⟨k, v⟩, hlast, hkey⟩ := hlast
      obtain ⟨l, hl⟩ := List.head?_eq_some_iff.1 hlast
      have hget : mv.get k = some v := OrdMap.mem_entries.1 (by simp [hl])
      have hk := hv.keylen hget
      have habs := hdis (k, v) (by simp [hl])
      simp only [wp_bind, wp_onVictim]
      refine (btreeLookup_at hv hkey hk).imp ?_
      rintro val _ ⟨rfl, rfl⟩
      rw [hget, Option.getD_some, wp_readKey hkey, wp_onTarget]
      refine (btreeInsert_spec hgeo ht hk habs (hv.val_ne_zero hget)).imp ?_
      rintro err t' (⟨rfl, ht', -⟩ | ⟨rfl, ht', -⟩)
      · simp only [ne_eq, not_true_eq_false, if_false, wp_bind, wp_onVictim]
        rw [wp_readKey hkey]
        refine (btreeRemove_spec hgeo hv hget).imp ?_
        rintro _ v' ⟨-, hv', -⟩
        have herase : (mv.erase k).entries = l :=
          OrdMap.erase_entries (A := []) (B := l) (by simpa using hl)
        refine (ih ht' hv' ?_ ?_).imp ?_
        · intro e he
          rw [herase] at he
          have hs := mv.sorted
          rw [hl] at hs
          rw [OrdMap.get_insert_of_ne (ne_of_lt ((List.pairwise_cons.1 hs).1 e he))]
          exact hdis e (by simp [hl, he])
        · rw [herase]
          rw [hl, List.length_cons] at hlen
          omega
        · rintro err s' ⟨n, mt', mv', hm, herr⟩
          rw [herase] at herr
          have hleft := hm.left
          have hmoved := hm.moved
          rw [herase] at hleft hmoved
          refine ⟨n + 1, mt', mv', ⟨hm.target, hm.victim, by rw [hleft, hl]; rfl, fun e => ?_⟩, ?_⟩
          · rw [hmoved, OrdMap.mem_insert habs, hl, List.take_succ_cons, List.mem_cons, or_assoc]
          · rw [hl, List.length_cons]
            exact herr.imp (fun h => ⟨h.1, by omega⟩) id
      · rw [if_pos (by decide), wp_pure]
        exact ⟨0, mt, mv, ⟨ht', hv, by simp, by simp⟩, Or.inr rfl⟩

end Loop

/-! ## The merge -/

section Whole

variable {geo : Geo} {s : Trees} {mt mv mt' mv' : OrdMap Key Nat} {n : Nat} {e e' : Key × Nat}

theorem mem_take_or_drop {l : Entries} : e ∈ l ↔ e ∈ l.take n ∨ e ∈ l.drop n := by
  rw [← List.mem_append, List.take_append_drop]

/-- The pairs that have moved are the greatest. -/
theorem Moved.above (h : Moved geo mt mv n s mt' mv') (he : e ∈ mv.entries.take n)
    (he' : e' ∈ mv'.entries) : e'.1 < e.1 := by
  have hs := mv.sorted
  rw [← List.take_append_drop n mv.entries, ← h.left] at hs
  exact (List.pairwise_append.1 hs).2.2 e he e' he'

theorem Moved.mem_take (h : Moved geo mt mv n s mt' mv') :
    e ∈ mv.entries.take n ↔ e ∈ mv.entries ∧ e ∉ mv'.entries := by
  refine ⟨fun he => ⟨List.mem_of_mem_take he, fun hc => lt_irrefl _ (h.above he hc)⟩, ?_⟩
  rintro ⟨he, hno⟩
  rw [h.left] at hno
  exact (mem_take_or_drop.1 he).resolve_right hno

/-- The keys of the two trees stay apart. -/
theorem Moved.apart (h : Moved geo mt mv n s mt' mv')
    (hdis : ∀ e ∈ mt.entries, ∀ e' ∈ mv.entries, e.1 ≠ e'.1) (he : e ∈ mt'.entries)
    (he' : e' ∈ mv'.entries) : e.1 ≠ e'.1 := by
  rcases (h.moved e).1 he with he | he
  · rw [h.left] at he'
    exact hdis e he e' (List.mem_of_mem_drop he')
  · exact ne_of_gt (h.above he he')

/-- `btree_merge` returns; then the target has the pairs of both trees and the victim none, or it
ran out of memory and the greatest pairs of the victim have moved. -/
theorem btree_merge_conserves (geo : Geo) (hgeo : 4 ≤ geo.noPairs) (target victim : Tree)
    (ht : Reachable geo target) (hv : Reachable geo victim)
    (hdis : ∀ e ∈ target.pairs geo, ∀ e' ∈ victim.pairs geo, e.1 ≠ e'.1) (turns : Nat)
    (hturns : (victim.pairs geo).length < turns) :
    ∃ err target' victim', btreeMerge geo turns ⟨target, victim⟩ = .ok err ⟨target', victim'⟩ ∧
      TreeInv geo target' ∧ TreeInv geo victim' ∧
      (err = 0 ∧ victim'.height = 0 ∧ victim'.node = 0 ∧
          (∀ e, e ∈ target'.pairs geo ↔ e ∈ target.pairs geo ∨ e ∈ victim.pairs geo) ∨
        err = -ENOMEM ∧
          (∀ e, (e ∈ target'.pairs geo ∨ e ∈ victim'.pairs geo) ↔
            (e ∈ target.pairs geo ∨ e ∈ victim.pairs geo)) ∧
          (∀ e ∈ target'.pairs geo, ∀ e' ∈ victim'.pairs geo, e.1 ≠ e'.1) ∧
          (∀ e, e ∈ target'.pairs geo ↔
            e ∈ target.pairs geo ∨ e ∈ victim.pairs geo ∧ e ∉ victim'.pairs geo) ∧
          ∀ e ∈ victim.pairs geo, e ∉ victim'.pairs geo →
            ∀ e' ∈ victim'.pairs geo, longcmp e'.1 e.1 < 0) := by
  obtain ⟨mt, hmt⟩ := ht.stores ⟨hgeo⟩
  obtain ⟨mv, hmv⟩ := hv.stores ⟨hgeo⟩
  by_cases h0 : target.node = 0
  · -- the fields are copied over
    have hempty : mt.entries = [] := hmt.height_eq_zero.1 (hmt.inv.1.empty_iff.2 h0)
    have hmv' := hmv.withFails target.fails
    refine ⟨0, victim.withFails target.fails, btreeInit victim.fails, ?_, hmv'.inv.1,
      (stores_init geo _).inv.1, Or.inl ⟨rfl, rfl, rfl, fun e => ?_⟩⟩
    · show (if target.node = 0 then _ else _ : MergeM Int) _ = _
      rw [if_pos h0]
      rfl
    · rw [hmv'.inv.2, hmt.inv.2, hmv.inv.2, hempty]
      simp
  · rw [hmt.inv.2, hmv.inv.2] at hdis
    rw [hmv.inv.2] at hturns
    obtain ⟨err, ⟨target', victim'⟩, hrun, n, mt', mv', hm, herr⟩ :=
      (btreeMergeLoop_spec (s := ⟨target, victim⟩) ⟨hgeo⟩ turns hmt hmv
        (fun e he => OrdMap.get_eq_none.2 fun e' he' => hdis e' he' e he) hturns).ok
    have hpt : target'.pairs geo = mt'.entries := hm.target.inv.2
    have hpv : victim'.pairs geo = mv'.entries := hm.victim.inv.2
    refine ⟨err, target', victim', ?_, hm.target.inv.1, hm.victim.inv.1, ?_⟩
    · show (if target.node = 0 then _ else _ : MergeM Int) _ = _
      rw [if_neg h0]
      exact hrun
    · rw [hpt, hpv, hmt.inv.2, hmv.inv.2]
      refine herr.imp ?_ ?_
      · rintro ⟨rfl, hn⟩
        have hnil : mv'.entries = [] := by rw [hm.left, List.drop_eq_nil_iff]; exact hn
        have hh : victim'.height = 0 := hm.victim.height_eq_zero.2 hnil
        refine ⟨rfl, hh, hm.victim.inv.1.empty_iff.1 hh, fun e => ?_⟩
        rw [hm.moved, List.take_of_length_le hn]
      · rintro rfl
        refine ⟨rfl, fun e => ?_, fun e he e' he' => hm.apart hdis he he', fun e => ?_, ?_⟩
        · rw [hm.moved, hm.left, or_assoc, ← mem_take_or_drop]
        · rw [hm.moved, hm.mem_take]
        · intro e he hno e' he'
          have hkey : ∀ x ∈ mv.entries, x.1.length = geo.keylen := fun x hx =>
            hmv.keylen (OrdMap.mem_entries.1 (show (x.1, x.2) ∈ mv.entries from hx))
          have hmem : e' ∈ mv.entries := List.mem_of_mem_drop (hm.left ▸ he')
          rw [longcmp_lt_zero (by rw [hkey e he, hkey e' hmem])]
          exact hm.above (hm.mem_take.2 ⟨he, hno⟩) he'

/-- Three pairs and memory for no further node. -/
def threePairs : Tree := treeAfter ⟨1, 4⟩ [false, true] (insertions 1 3)

/-- Six pairs in three nodes. -/
def sixPairs : Tree := treeAfter ⟨1, 4⟩ [] (insertions 4 6)

/-- One of the six pairs finds room, the next one would need a new node. -/
theorem btree_merge_conserves_partly :
    ∃ target victim, btreeMerge ⟨1, 4⟩ 7 ⟨threePairs, sixPairs⟩ = .ok (-ENOMEM) ⟨target, victim⟩ ∧
      target.pairs ⟨1, 4⟩ = [([9], 9), ([3], 3), ([2], 2), ([1], 1)] ∧
      victim.pairs ⟨1, 4⟩ = [8, 7, 6, 5, 4].map (fun k => ([k], k)) ∧
      TreeInv ⟨1, 4⟩ target ∧ TreeInv ⟨1, 4⟩ victim ∧
      ∀ e, (e ∈ target.pairs ⟨1, 4⟩ ∨ e ∈ victim.pairs ⟨1, 4⟩) ↔
        (e ∈ threePairs.pairs ⟨1, 4⟩ ∨ e ∈ sixPairs.pairs ⟨1, 4⟩) := by
  have ht : Reachable ⟨1, 4⟩ threePairs := reachable_treeAfter ⟨by decide⟩ (by decide +kernel)
  have hv : Reachable ⟨1, 4⟩ sixPairs := reachable_treeAfter ⟨by decide⟩ (by decide +kernel)
  have hdis : ∀ e ∈ threePairs.pairs ⟨1, 4⟩, ∀ e' ∈ sixPairs.pairs ⟨1, 4⟩, e.1 ≠ e'.1 := by
    decide +kernel
  have hlen : (sixPairs.pairs ⟨1, 4⟩).length < 7 := by decide +kernel
  have hrun := run_eq (show valueOf (btreeMerge ⟨1, 4⟩ 7) ⟨threePairs, sixPairs⟩ = some (-ENOMEM) by
    decide +kernel)
  have hpairs : (stateOf (btreeMerge ⟨1, 4⟩ 7) ⟨threePairs, sixPairs⟩).target.pairs ⟨1, 4⟩ =
    [([9], 9), ([3], 3), ([2], 2), ([1], 1)] := by decide +kernel
  have hleft : (stateOf (btreeMerge ⟨1, 4⟩ 7) ⟨threePairs, sixPairs⟩).victim.pairs ⟨1, 4⟩ =
    [8, 7, 6, 5, 4].map (fun k => ([k], k)) := by decide +kernel
  generalize threePairs = t at ht hdis hrun hpairs hleft ⊢
  generalize sixPairs = v at hv hdis hlen hrun hpairs hleft ⊢
  obtain ⟨err, target, victim, hmerge, hit, hiv, hres⟩ :=
    btree_merge_conserves ⟨1, 4⟩ (by decide) t v ht hv hdis 7 hlen
  generalize stateOf (btreeMerge ⟨1, 4⟩ 7) ⟨t, v⟩ = s at hrun hpairs hleft
  rw [hrun] at hmerge
  cases hmerge
  exact ⟨target, victim, hrun, hpairs, hleft, hit, hiv, (hres.resolve_left fun h => by
    cases h.1).2.1⟩

end Whole

end Logfs.Btree
