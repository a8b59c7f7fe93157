import Logfs.Btree.Stack

/-!
# The descent `find_level`

`find_level` ends at the one node of its level whose range contains the key.
On the way it may lower last separators to the key, which only widens the
ranges below; the pairs of the level it reaches stay as they are.
-/

namespace Logfs.Btree

open Levels

/-- Two spans at one address with the same values, in the second one under keys that may be lower. -/
structure SameShape (r r' : Span Key) : Prop where
  addr : r.addr = r'.addr
  lowered : List.Forall₂ (fun e e' => e'.1 ≤ e.1 ∧ e'.2 = e.2) r.es r'.es

/-- The run changed no field of the head and allocated nothing. -/
structure SameHead (t t' : Tree) : Prop where
  node : t'.node = t.node
  height : t'.height = t.height
  next : t'.next = t.next
  fails : t'.fails = t.fails

/-- The outcome of a descent for `k` to the level `b`, which ended at the address `a`. -/
structure Found (geo : Geo) (t : Tree) (k : Key) (b : Level) (rest : List Level) (a : Nat)
    (t' : Tree) (b' : Level) (rest' : List Level) : Prop where
  stack : Stack geo t' (b' :: rest')
  bottom : List.Forall₂ Span.Le b b'
  shape : List.Forall₂ (List.Forall₂ SameShape) rest rest'
  here : ∃ P r Q, b' = P ++ r :: Q ∧ r.addr = a ∧ r.rng k
  ext : Ext (addrs rest) t t'
  head : SameHead t t'

theorem SameShape.length {r r' : Span Key} (h : SameShape r r') : r.es.length = r'.es.length :=
  h.lowered.length_eq

theorem lowered_refl (es : Entries) :
    List.Forall₂ (fun e e' : Key × Nat => e'.1 ≤ e.1 ∧ e'.2 = e.2) es es :=
  List.forall₂_same.2 fun _ _ => ⟨le_refl _, rfl⟩

theorem lowered_trans {es es' es'' : Entries}
    (h : List.Forall₂ (fun e e' : Key × Nat => e'.1 ≤ e.1 ∧ e'.2 = e.2) es es')
    (h' : List.Forall₂ (fun e e' : Key × Nat => e'.1 ≤ e.1 ∧ e'.2 = e.2) es' es'') :
    List.Forall₂ (fun e e' : Key × Nat => e'.1 ≤ e.1 ∧ e'.2 = e.2) es es'' := by
  induction h generalizing es'' with
  | nil => exact h'
  | cons he _ ih =>
    cases h' with
    | cons he' h' => exact List.Forall₂.cons ⟨le_trans he'.1 he.1, he'.2.trans he.2⟩ (ih h')

theorem SameHead.trans {t t' t'' : Tree} (h : SameHead t t') (h' : SameHead t' t'') :
    SameHead t t'' :=
  ⟨h'.node.trans h.node, h'.height.trans h.height, h'.next.trans h.next, h'.fails.trans h.fails⟩

theorem SameHead.refl (t : Tree) : SameHead t t := ⟨rfl, rfl, rfl, rfl⟩

theorem spans_le_refl (b : Level) : List.Forall₂ Span.Le b b :=
  List.forall₂_same.2 fun _ _ => ⟨rfl, rfl, fun _ h => h⟩

theorem sameShape_refl (b : Level) : List.Forall₂ SameShape b b :=
  List.forall₂_same.2 fun _ _ => ⟨rfl, lowered_refl _⟩

theorem spans_le_sameShape {b b' : Level} (h : List.Forall₂ Span.Le b b') :
    List.Forall₂ SameShape b b' :=
  h.imp fun _ _ hrr => ⟨hrr.addr, by rw [hrr.es]; exact lowered_refl _⟩

theorem sameShape_map_addr {b b' : Level} (h : List.Forall₂ SameShape b b') :
    b.map Span.addr = b'.map Span.addr := by
  induction h with
  | nil => rfl
  | cons hr _ ih => rw [List.map_cons, List.map_cons, ih, hr.addr]

theorem sameShape_addrs {ls ls' : List Level} (h : List.Forall₂ (List.Forall₂ SameShape) ls ls') :
    addrs ls = addrs ls' := by
  induction h with
  | nil => rfl
  | cons hb _ ih => rw [addrs_cons, addrs_cons, ih, sameShape_map_addr hb]

theorem spans_le_kids {b b' : Level} (h : List.Forall₂ Span.Le b b') : KidsLe (kids b) (kids b') := by
  induction h with
  | nil => exact List.Forall₂.nil
  | cons hr _ ih =>
    rw [kids_cons, kids_cons, hr.es]
    exact (kidsOf_mono hr.rng).append ih

theorem spans_le_entries {b b' : Level} (h : List.Forall₂ Span.Le b b') :
    b.flatMap Span.es = b'.flatMap Span.es := by
  rw [← kids_entries, ← kids_entries, (spans_le_kids h).entries]

theorem spans_le_trans {b b' b'' : Level} (h : List.Forall₂ Span.Le b b')
    (h' : List.Forall₂ Span.Le b' b'') : List.Forall₂ Span.Le b b'' := by
  induction h generalizing b'' with
  | nil => exact h'
  | cons hr _ ih =>
    cases h' with
    | cons hr' h' =>
      exact List.Forall₂.cons ⟨hr.addr.trans hr'.addr, hr.es.trans hr'.es,
        fun x hx => hr'.rng x (hr.rng x hx)⟩ (ih h')

theorem sameShape_trans {b b' b'' : Level} (h : List.Forall₂ SameShape b b')
    (h' : List.Forall₂ SameShape b' b'') : List.Forall₂ SameShape b b'' := by
  induction h generalizing b'' with
  | nil => exact h'
  | cons hr _ ih =>
    cases h' with
    | cons hr' h' =>
      exact List.Forall₂.cons ⟨hr.addr.trans hr'.addr, lowered_trans hr.lowered hr'.lowered⟩
        (ih h')

theorem sameShapes_trans {ls ls' ls'' : List Level}
    (h : List.Forall₂ (List.Forall₂ SameShape) ls ls')
    (h' : List.Forall₂ (List.Forall₂ SameShape) ls' ls'') :
    List.Forall₂ (List.Forall₂ SameShape) ls ls'' := by
  induction h generalizing ls'' with
  | nil => exact h'
  | cons hb _ ih =>
    cases h' with
    | cons hb' h' => exact List.Forall₂.cons (sameShape_trans hb hb') (ih h')

theorem Found.addrs_eq {geo : Geo} {t t' : Tree} {k : Key} {b b' : Level} {rest rest' : List Level}
    {a : Nat} (h : Found geo t k b rest a t' b' rest') :
    addrs (b :: rest) = addrs (b' :: rest') :=
  sameShape_addrs (List.Forall₂.cons (spans_le_sameShape h.bottom) h.shape)

section Step

variable {geo : Geo} {t : Tree} {b u P Q : Level} {rest : List Level} {r : Span Key} {key : KeyPtr}
  {k : Key}

/-- The span under a kid may take the whole range of the kid. -/
theorem Stack.widen {X Y : List (Kid Key)} {c : Kid Key} (h : Stack geo t (b :: u :: rest))
    (hc : kids u = X ++ c :: Y) :
    ∃ b', List.Forall₂ Span.Le b b' ∧ Stack geo t (b' :: u :: rest) ∧
      ∃ P r Q, b' = P ++ r :: Q ∧ r.addr = c.val ∧ r.rng = c.rng := by
  have hl := h.links
  rw [hc] at hl
  obtain ⟨P, r, Q, rfl, hP, hr, hQ⟩ := forall₂_split_cons hl
  let r' : Span Key := ⟨r.addr, c.rng, r.es⟩
  have hle : List.Forall₂ Span.Le (P ++ r :: Q) (P ++ r' :: Q) :=
    forall₂_append (spans_le_refl P) (List.Forall₂.cons ⟨rfl, rfl, hr.rng⟩ (spans_le_refl Q))
  have hmem : ∀ s ∈ P ++ r' :: Q, s ∈ P ++ r :: Q ∨ s = r' := by
    intro s hs
    simp only [List.mem_append, List.mem_cons] at hs ⊢
    tauto
  refine ⟨P ++ r' :: Q, hle, h.tail.cons ?_ ?_ ?_ ?_ ?_, P, r', Q, rfl, hr.addr.symm, rfl⟩
  · rw [hc]
    exact forall₂_append hP (List.Forall₂.cons ⟨hr.addr, fun _ hx => hx⟩ hQ)
  · intro s hs
    rcases hmem s hs with hs | rfl
    · exact h.bottom_holds s hs
    · have hold := h.bottom_holds r (by simp)
      exact ⟨hold.words, hold.ok.sorted, fun e he => hr.rng _ (hold.ok.inRng e he)⟩
  · simpa [r'] using h.bottom_nodup
  · intro s hs
    rcases hmem s hs with hs | rfl
    · exact h.bottom_not_mem hs
    · exact h.bottom_not_mem (r := r) (by simp)
  · intro s hs
    rcases hmem s hs with hs | rfl
    · exact h.bottom_live hs
    · exact h.bottom_live (r := r) (by simp)

/-- The node below the first separator that is not above the key may hold the key. -/
theorem Stack.below_separator {A B : Entries} {e : Key × Nat}
    (h : Stack geo t (b :: (P ++ r :: Q) :: rest)) (hr : r.rng k) (hes : r.es = A ++ e :: B)
    (hA : ∀ e ∈ A, k < e.1) (he : e.1 ≤ k) :
    ∃ b', List.Forall₂ Span.Le b b' ∧ Stack geo t (b' :: (P ++ r :: Q) :: rest) ∧
      ∃ P' r' Q', b' = P' ++ r' :: Q' ∧ r'.addr = e.2 ∧ r'.rng k := by
  have hkids : kids (P ++ r :: Q) = (kids P ++ kidsOf r.rng A) ++
      (⟨e.1, e.2, fun x => below r.rng A x ∧ e.1 ≤ x⟩ : Kid Key) ::
        (kidsOf (fun x => below r.rng A x ∧ x < e.1) B ++ kids Q) := by
    simp [kids_append, kids_cons, hes, kidsOf_append]
  obtain ⟨b', hle, hst, P', r', Q', hb', hr', hrng⟩ := h.widen hkids
  exact ⟨b', hle, hst, P', r', Q', hb', hr', by rw [hrng]; exact ⟨⟨hr, hA⟩, he⟩⟩

/-- One turn of the descent, from a node whose range contains the key. -/
theorem findStep_spec (h : Stack geo t (b :: (P ++ r :: Q) :: rest)) (hr : r.rng k)
    (hne : r.es ≠ []) (hkey : KeyAt geo t key k) (hk : k.length = geo.keylen) :
    Runs (findStep geo key r.addr) (fun a t' => ∃ r' b',
      Stack geo t' (b' :: (P ++ r' :: Q) :: rest) ∧ SameShape r r' ∧ List.Forall₂ Span.Le b b' ∧
      (∃ P r Q, b' = P ++ r :: Q ∧ r.addr = a ∧ r.rng k) ∧
      Ext [r.addr] t t' ∧ SameHead t t') t := by
  have hold := h.tail.bottom_holds r (by simp)
  obtain ⟨w, hw, hrep⟩ := hold.words
  obtain ⟨A, B, hes, hA, hB⟩ := exists_split hold.ok.sorted k
  rw [hes] at hrep
  have hpos := hrep.scan_pos hk hA fun e he => hB e (List.mem_of_mem_head? he)
  have hle := hrep.length_le
  rw [List.length_append] at hle
  unfold findStep
  simp only [wp_bind, wp_readKey hkey, wp_load hw, hpos, wp_ite, wp_pure, wp_throw]
  cases B with
  | cons e B =>
    -- the key belongs below the pair `e`
    have hval : bval geo w A.length = e.2 := hrep.bval_append
    have hnz : e.2 ≠ 0 := (hrep.entry e (by simp)).2
    rw [hval]
    refine ⟨fun hc => ?_, fun _ => ?_⟩
    · simp only [List.length_cons] at hle
      rcases hc with hc | hc
      · omega
      · exact absurd hc hnz
    · obtain ⟨b', hle', hst, hhere⟩ := h.below_separator hr hes hA (hB e (by simp))
      exact ⟨r, b', hst, ⟨rfl, lowered_refl _⟩, hle', hhere, Ext.refl _ _, SameHead.refl t⟩
  | nil =>
    -- the key is below every pair: the last separator is lowered to it
    simp only [List.append_nil] at hes hrep hle
    have hunused : A.length = geo.noPairs ∨ bval geo w A.length = 0 := by
      by_cases hc : A.length = geo.noPairs
      · exact Or.inl hc
      · simp only [List.length_nil, Nat.add_zero] at hle
        exact Or.inr (hrep.bval_unused (Nat.le_refl _) (by omega))
    have hAne : A ≠ [] := hes ▸ hne
    obtain ⟨A', e, rfl⟩ : ∃ A' e, A = A' ++ [e] :=
      ⟨A.dropLast, A.getLast hAne, (List.dropLast_append_getLast hAne).symm⟩
    refine ⟨fun _ => ⟨fun hc => by simp at hc, fun _ => ?_⟩, fun hc => absurd hunused hc⟩
    rw [show (A' ++ [e]).length - 1 = A'.length by simp, wp_store hw]
    have hset := hrep.setkey hk
    have hval : bval geo (setkey geo w k A'.length) A'.length = e.2 := hset.bval_append
    rw [hval]
    let r' : Span Key := ⟨r.addr, r.rng, A' ++ [(k, e.2)]⟩
    have hok : r'.Ok := by
      have hs := hold.ok.sorted
      rw [hes] at hs
      refine ⟨?_, ?_⟩
      · refine List.pairwise_append.2 ⟨(List.pairwise_append.1 hs).1, List.pairwise_singleton _ _, ?_⟩
        intro x hx y hy
        rw [List.mem_singleton] at hy
        subst hy
        exact hA x (by simp [hx])
      · intro x hx
        simp only [r', List.mem_append, List.mem_singleton] at hx
        rcases hx with hx | rfl
        · exact hold.ok.inRng x (by rw [hes]; simp [hx])
        · exact hr
    have hst := h.tail.store_bottom (show r'.addr = r.addr from rfl) (fun _ hx => hx) hset hok
    have hlinks : List.Forall₂ Link (kids (P ++ r' :: Q)) b := by
      refine links_mono h.links ?_
      simp only [kids_append, kids_cons, hes, r', kidsOf_append]
      refine forall₂_append (List.forall₂_same.2 fun _ _ => ⟨rfl, fun _ hx => hx⟩) ?_
      refine forall₂_append ?_ (List.forall₂_same.2 fun _ _ => ⟨rfl, fun _ hx => hx⟩)
      refine forall₂_append (List.forall₂_same.2 fun _ _ => ⟨rfl, fun _ hx => hx⟩) ?_
      refine List.Forall₂.cons ⟨rfl, fun x hx => ⟨hx.1, ?_⟩⟩ List.Forall₂.nil
      exact le_trans (le_of_lt (hA e (by simp))) hx.2
    have hdis : ∀ s ∈ b, s.addr ≠ r.addr := by
      intro s hs he
      exact h.bottom_not_mem hs (by rw [he, addrs_cons]; simp)
    have hstack := hst.cons hlinks
      (fun s hs => (h.bottom_holds s hs).ext (Ext.store r.addr _ t) (by simpa using hdis s hs)
        (h.bottom_live hs).2)
      h.bottom_nodup
      (fun s hs => by
        have := h.bottom_not_mem hs
        simpa [r'] using this)
      (fun s hs => h.bottom_live hs)
    obtain ⟨b', hle', hst', hhere⟩ := hstack.below_separator (A := A') (B := []) hr rfl
      (fun x hx => hA x (by simp [hx])) (le_refl k)
    have hlow : List.Forall₂ (fun e e' : Key × Nat => e'.1 ≤ e.1 ∧ e'.2 = e.2) r.es r'.es := by
      rw [hes]
      exact forall₂_append (lowered_refl A')
        (List.Forall₂.cons ⟨le_of_lt (hA e (by simp)), rfl⟩ List.Forall₂.nil)
    exact ⟨r', b', hst', ⟨rfl, hlow⟩, hle', hhere, Ext.store _ _ _, ⟨rfl, rfl, rfl, rfl⟩⟩

end Step

section Loop

variable {geo : Geo} {t : Tree} {key : KeyPtr} {k : Key}

/-- The last turn of the loop comes after the descent to the level above. -/
theorem findLoop_succ (n node : Nat) :
    findLoop geo key (n + 1) node = findLoop geo key n node >>= findStep geo key := by
  induction n generalizing node with
  | zero => simp [findLoop]
  | succ n ih =>
    show (findStep geo key node >>= fun c => findLoop geo key (n + 1) c) =
      (findStep geo key node >>= fun c => findLoop geo key n c) >>= findStep geo key
    simp only [ih, bind_assoc]

/-- The root may hold every key. -/
theorem Stack.found_root {b : Level} (h : Stack geo t [b]) :
    ∃ b', Found geo t k b [] t.node t b' [] := by
  obtain ⟨r, rfl, hr⟩ := h.linked
  let r' : Span Key := ⟨r.addr, fun _ => True, r.es⟩
  refine ⟨[r'], ⟨⟨r', rfl, hr⟩, ?_, by simp [r'], h.live⟩,
    List.Forall₂.cons ⟨rfl, rfl, fun _ _ => trivial⟩ List.Forall₂.nil, List.Forall₂.nil,
    ⟨[], r', [], rfl, hr, trivial⟩, Ext.refl _ _, SameHead.refl t⟩
  intro l hl s hs
  rw [List.mem_singleton] at hl
  subst hl
  rw [List.mem_singleton] at hs
  subst hs
  have hold := h.bottom_holds r (by simp)
  exact ⟨hold.words, hold.ok.sorted, fun _ _ => trivial⟩

/-- A descent to a level leaves the level below it attached. -/
theorem Found.under {t1 : Tree} {b u u1 : Level} {rest rest1 : List Level} {a : Nat}
    (hf : Found geo t k u rest a t1 u1 rest1) (h : Stack geo t (b :: u :: rest)) :
    Stack geo t1 (b :: u1 :: rest1) := by
  refine h.reattach hf.stack (hf.ext.mono fun a ha => addrs_tail ha)
    (links_le h.links (spans_le_kids hf.bottom)) fun a ha => Or.inl ?_
  rwa [hf.addrs_eq]

/-- One more level of a descent. -/
theorem Found.step {t1 t2 : Tree} {b b' P Q : Level} {u : Level} {r r' : Span Key}
    {rest rest1 : List Level} {a : Nat}
    (hf : Found geo t k u rest r.addr t1 (P ++ r :: Q) rest1)
    (hst : Stack geo t2 (b' :: (P ++ r' :: Q) :: rest1)) (hsh : SameShape r r')
    (hbot : List.Forall₂ Span.Le b b')
    (hhere : ∃ P r Q, b' = P ++ r :: Q ∧ r.addr = a ∧ r.rng k) (hext : Ext [r.addr] t1 t2)
    (hhead : SameHead t1 t2) : Found geo t k b (u :: rest) a t2 b' ((P ++ r' :: Q) :: rest1) := by
  refine ⟨hst, hbot, List.Forall₂.cons ?_ hf.shape, hhere, ?_, hf.head.trans hhead⟩
  · refine sameShape_trans (spans_le_sameShape hf.bottom) ?_
    exact forall₂_append (sameShape_refl P) (List.Forall₂.cons hsh (sameShape_refl Q))
  · refine (hf.ext.mono fun a ha => addrs_tail ha).trans hext fun x hx => Or.inl ?_
    rw [List.mem_singleton] at hx
    rw [hx, hf.addrs_eq]
    exact addr_mem_addrs (by simp)

theorem findLoop_spec (hk : k.length = geo.keylen) :
    ∀ (rest : List Level) (b : Level), Stack geo t (b :: rest) →
      (∀ l ∈ rest, ∀ r ∈ l, r.es ≠ []) → KeyAt geo t key k → key.Avoids (addrs rest) →
      Runs (findLoop geo key rest.length t.node)
        (fun a t' => ∃ b' rest', Found geo t k b rest a t' b' rest') t := by
  intro rest
  induction rest with
  | nil =>
    intro b h _ _ _
    obtain ⟨b', hf⟩ := h.found_root (k := k)
    exact ⟨b', [], hf⟩
  | cons u rest ih =>
    intro b h hne hkey hav
    rw [List.length_cons, findLoop_succ]
    have hav' := hav.mono fun a (ha : a ∈ addrs rest) => addrs_tail ha
    refine (ih u h.tail (fun l hl => hne l (List.mem_cons_of_mem _ hl)) hkey hav').bind ?_
    rintro a t1 ⟨u1, rest1, hf⟩
    obtain ⟨P, r, Q, rfl, rfl, hr⟩ := hf.here
    have hrne : r.es ≠ [] := by
      obtain ⟨s, hs, hle⟩ := forall₂_mem_right hf.bottom (show r ∈ P ++ r :: Q by simp)
      rw [← hle.es]
      exact hne u List.mem_cons_self s hs
    refine (findStep_spec (hf.under h) hr hrne (hkey.ext hf.ext hav') hk).imp ?_
    rintro a' t2 ⟨r', b', hst, hsh, hbot, hhere, hext, hhead⟩
    exact ⟨b', _, hf.step hst hsh hbot hhere hext hhead⟩

/-- `find_level` reaches the node of its level whose range contains the key. -/
theorem findLevel_spec {b : Level} {rest : List Level} {level : Nat} (hk : k.length = geo.keylen)
    (h : Stack geo t (b :: rest)) (hne : ∀ l ∈ rest, ∀ r ∈ l, r.es ≠ []) (hkey : KeyAt geo t key k)
    (hav : key.Avoids (addrs rest)) (hlen : t.height = level + rest.length) :
    Runs (findLevel geo key level)
      (fun a t' => ∃ b' rest', Found geo t k b rest a t' b' rest') t := by
  unfold findLevel
  rw [Runs, wp_bind, wp_get, hlen, Nat.add_sub_cancel_left]
  refine (findLoop_spec hk rest b h hne hkey hav).bind ?_
  rintro a t' ⟨b', rest', hf⟩
  obtain ⟨P, r, Q, rfl, rfl, hr⟩ := hf.here
  have := (hf.stack.bottom_live (r := r) (by simp)).1
  rw [if_neg (by omega), wp_pure]
  exact ⟨_, rest', hf⟩

end Loop

end Logfs.Btree
