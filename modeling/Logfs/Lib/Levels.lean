import Mathlib.Tactic
import Mathlib.Data.List.Forall2
import Mathlib.Data.List.Flatten

/-!
# Search trees, level by level

A search tree is described here by its levels, each a list of `Span`s from the
greatest keys to the least.  A span holds pairs of a key and a value; on an
inner level the values are the addresses of the spans one level below, and the
keys separate them.  A span also carries the range of keys it may hold.  The
pairs of a span cut its range into the ranges of its `Kid`s, and one level
refines the other when every span lies inside the range of its kid.

Ranges are predicates, so a split, a merge or a moved separator changes them by
conjunctions and disjunctions, and widening a range above never disturbs the
levels below.
-/

namespace Logfs.Levels

variable {K : Type} [LinearOrder K]

/-- A node of a level: its address, the keys it may hold, the pairs it holds. -/
structure Span (K : Type) where
  addr : Nat
  rng : K → Prop
  es : List (K × Nat)

/-- A pair of a level, with the keys that belong below it. -/
structure Kid (K : Type) where
  key : K
  val : Nat
  rng : K → Prop

/-- The kids the pairs `es` cut the range `R` into. -/
def kidsOf (R : K → Prop) : List (K × Nat) → List (Kid K)
  | [] => []
  | (k, v) :: es => ⟨k, v, fun x => R x ∧ k ≤ x⟩ :: kidsOf (fun x => R x ∧ x < k) es

/-- What is left of `R` below the keys of `es`. -/
def below (R : K → Prop) (es : List (K × Nat)) : K → Prop := fun x => R x ∧ ∀ e ∈ es, x < e.1

/-- The kids of a level, in order. -/
def kids (l : List (Span K)) : List (Kid K) := l.flatMap fun r => kidsOf r.rng r.es

/-- The pair of a kid. -/
def Kid.entry (c : Kid K) : K × Nat := (c.key, c.val)

/-- The same pair with a wider range. -/
structure Kid.Le (a b : Kid K) : Prop where
  key : a.key = b.key
  val : a.val = b.val
  rng : ∀ x, a.rng x → b.rng x

/-- Pairwise the same pairs with wider ranges. -/
def KidsLe : List (Kid K) → List (Kid K) → Prop := List.Forall₂ Kid.Le

/-- The span `r` sits below the kid `c`. -/
structure Link (c : Kid K) (r : Span K) : Prop where
  addr : c.val = r.addr
  rng : ∀ x, r.rng x → c.rng x

/-- Descending pairs whose keys are in the range. -/
structure Span.Ok (r : Span K) : Prop where
  sorted : r.es.Pairwise fun a b => b.1 < a.1
  inRng : ∀ e ∈ r.es, r.rng e.1

/-- The same node with a wider range. -/
structure Span.Le (a b : Span K) : Prop where
  addr : a.addr = b.addr
  es : a.es = b.es
  rng : ∀ x, a.rng x → b.rng x

/-- Every key of `Q` lies below every key of `P`. -/
def Sep (P Q : K → Prop) : Prop := ∀ x y, P x → Q y → y < x

/-! ## Lists -/

section Lists

variable {α β : Type}

theorem forall₂_append {r : α → β → Prop} {a b : List α} {c d : List β}
    (h : List.Forall₂ r a c) (h' : List.Forall₂ r b d) : List.Forall₂ r (a ++ b) (c ++ d) := by
  induction h with
  | nil => exact h'
  | cons hab _ ih => exact List.Forall₂.cons hab ih

/-- A relation between lists splits where the first list splits. -/
theorem forall₂_split {r : α → β → Prop} {a b : List α} {l : List β}
    (h : List.Forall₂ r (a ++ b) l) :
    ∃ c d, l = c ++ d ∧ List.Forall₂ r a c ∧ List.Forall₂ r b d := by
  induction a generalizing l with
  | nil => exact ⟨[], l, rfl, List.Forall₂.nil, h⟩
  | cons x a ih =>
    cases h with
    | cons hx h =>
      obtain ⟨c, d, rfl, hc, hd⟩ := ih h
      exact ⟨_ :: c, d, rfl, List.Forall₂.cons hx hc, hd⟩

theorem forall₂_split_cons {r : α → β → Prop} {a b : List α} {x : α} {l : List β}
    (h : List.Forall₂ r (a ++ x :: b) l) :
    ∃ c y d, l = c ++ y :: d ∧ List.Forall₂ r a c ∧ r x y ∧ List.Forall₂ r b d := by
  obtain ⟨c, d, rfl, hc, hd⟩ := forall₂_split h
  cases hd with
  | cons hx hd => exact ⟨c, _, _, rfl, hc, hx, hd⟩

/-- Two members of a list whose members are related in order, neither related
to the other, are one occurrence. -/
theorem pairwise_split_unique {R : α → α → Prop} {l A B A' B' : List α} {c d : α}
    (h : l.Pairwise R) (hc : l = A ++ c :: B) (hd : l = A' ++ d :: B') (hcd : ¬ R c d)
    (hdc : ¬ R d c) : A = A' ∧ c = d ∧ B = B' := by
  have key : ∀ {A B A' B' : List α} {c d : α}, l = A ++ c :: B → l = A' ++ d :: B' →
      ¬ R c d → ¬ A.length < A'.length := by
    intro A B A' B' c d hc hd hcd hlt
    have hpre : c ∈ A' := by
      have h1 : (A ++ c :: B)[A.length]? = some c := by simp
      rw [← hc, hd, List.getElem?_append_left hlt] at h1
      exact List.mem_of_getElem? h1
    rw [hd] at h
    exact hcd ((List.pairwise_append.1 h).2.2 c hpre d List.mem_cons_self)
  have hlen := Nat.le_antisymm (Nat.not_lt.1 (key hd hc hdc)) (Nat.not_lt.1 (key hc hd hcd))
  obtain ⟨h1, h2⟩ := List.append_inj (hc.symm.trans hd) hlen
  simp only [List.cons.injEq] at h2
  exact ⟨h1, h2.1, h2.2⟩

/-- An element that occurs on neither side of a split is at the split. -/
theorem split_at_only {P Q L M : List α} {r s : α} (h : P ++ r :: Q = L ++ s :: M) (hL : r ∉ L)
    (hM : r ∉ M) : P = L ∧ r = s ∧ Q = M := by
  induction P generalizing L with
  | nil =>
    cases L with
    | nil => simpa using h
    | cons x L =>
      simp only [List.nil_append, List.cons_append, List.cons.injEq] at h
      exact absurd h.1 (fun e => hL (e ▸ List.mem_cons_self))
  | cons p P ih =>
    cases L with
    | nil =>
      simp only [List.nil_append, List.cons_append, List.cons.injEq] at h
      exact absurd (h.2 ▸ by simp) hM
    | cons x L =>
      simp only [List.cons_append, List.cons.injEq] at h
      obtain ⟨h1, h2, h3⟩ := ih h.2 fun hr => hL (List.mem_cons_of_mem _ hr)
      exact ⟨by rw [h.1, h1], h2, h3⟩

theorem forall₂_mem_right {r : α → β → Prop} {a : List α} {b : List β} (h : List.Forall₂ r a b)
    {y : β} (hy : y ∈ b) : ∃ x ∈ a, r x y := by
  induction h with
  | nil => simp at hy
  | cons hxy _ ih =>
    rcases List.mem_cons.1 hy with rfl | hy
    · exact ⟨_, List.mem_cons_self, hxy⟩
    · obtain ⟨x, hx, hr⟩ := ih hy
      exact ⟨x, List.mem_cons_of_mem _ hx, hr⟩

/-- A descending list of pairs splits at a key. -/
theorem exists_split {K : Type} [LinearOrder K] {es : List (K × Nat)}
    (hs : es.Pairwise fun a b => b.1 < a.1) (k : K) :
    ∃ A B, es = A ++ B ∧ (∀ e ∈ A, k < e.1) ∧ ∀ e ∈ B, e.1 ≤ k := by
  induction es with
  | nil => exact ⟨[], [], rfl, by simp, by simp⟩
  | cons e es ih =>
    obtain ⟨h1, h2⟩ := List.pairwise_cons.1 hs
    by_cases hk : k < e.1
    · obtain ⟨A, B, rfl, hA, hB⟩ := ih h2
      exact ⟨e :: A, B, rfl, by simpa [hk] using hA, hB⟩
    · refine ⟨[], e :: es, rfl, by simp, ?_⟩
      intro e' he'
      rcases List.mem_cons.1 he' with rfl | he'
      · exact not_lt.1 hk
      · exact le_trans (le_of_lt (h1 e' he')) (not_lt.1 hk)

/-- The last key of a descending list is its least. -/
theorem last_le {K : Type} [LinearOrder K] {A : List (K × Nat)} {e : K × Nat}
    (hs : (A ++ [e]).Pairwise fun a b => b.1 < a.1) : ∀ x ∈ A ++ [e], e.1 ≤ x.1 := by
  intro x hx
  rw [List.mem_append, List.mem_singleton] at hx
  rcases hx with hx | rfl
  · exact le_of_lt ((List.pairwise_append.1 hs).2.2 x hx e (by simp))
  · exact le_refl _

end Lists

/-! ## Kids of one span -/

section Kids

variable {R R' : K → Prop} {es A B : List (K × Nat)} {k : K} {v : Nat}

@[simp] theorem kidsOf_nil : kidsOf R [] = [] := rfl

@[simp] theorem kidsOf_cons (e : K × Nat) :
    kidsOf R (e :: es) = ⟨e.1, e.2, fun x => R x ∧ e.1 ≤ x⟩ :: kidsOf (fun x => R x ∧ x < e.1) es :=
  rfl

@[simp] theorem below_nil : below R [] = R := by
  funext x
  simp [below]

theorem below_cons (e : K × Nat) : below R (e :: es) = below (fun x => R x ∧ x < e.1) es := by
  funext x
  simp only [below, List.forall_mem_cons, eq_iff_iff]
  tauto

theorem kidsOf_append : kidsOf R (A ++ B) = kidsOf R A ++ kidsOf (below R A) B := by
  induction A generalizing R with
  | nil => simp
  | cons e A ih => simp only [List.cons_append, kidsOf_cons, ih, below_cons]

@[simp] theorem kidsOf_entries (R : K → Prop) (es : List (K × Nat)) :
    (kidsOf R es).map Kid.entry = es := by
  induction es generalizing R with
  | nil => rfl
  | cons e es ih => simp [kidsOf_cons, ih, Kid.entry]

@[simp] theorem kidsOf_length : (kidsOf R es).length = es.length := by
  rw [← List.length_map (f := Kid.entry), kidsOf_entries]

theorem kidsOf_rng {c : Kid K} (hc : c ∈ kidsOf R es) {x : K} (hx : c.rng x) :
    R x ∧ c.key ≤ x := by
  induction es generalizing R with
  | nil => simp at hc
  | cons e es ih =>
    rw [kidsOf_cons, List.mem_cons] at hc
    rcases hc with rfl | hc
    · exact hx
    · exact ⟨(ih hc).1.1, (ih hc).2⟩

theorem kidsOf_entry_mem {c : Kid K} (hc : c ∈ kidsOf R es) : c.entry ∈ es := by
  have := List.mem_map_of_mem (f := Kid.entry) hc
  rwa [kidsOf_entries] at this

/-- The keys of the pairs lie in the ranges of their kids. -/
theorem kidsOf_key_rng (hs : es.Pairwise fun a b => b.1 < a.1) (hR : ∀ e ∈ es, R e.1)
    {c : Kid K} (hc : c ∈ kidsOf R es) : c.rng c.key := by
  induction es generalizing R with
  | nil => simp at hc
  | cons e es ih =>
    rw [kidsOf_cons, List.mem_cons] at hc
    obtain ⟨h1, h2⟩ := List.pairwise_cons.1 hs
    rcases hc with rfl | hc
    · exact ⟨hR e List.mem_cons_self, le_refl _⟩
    · exact ih h2 (fun e' he' => ⟨hR e' (List.mem_cons_of_mem _ he'), h1 e' he'⟩) hc

theorem kidsOf_sep : (kidsOf R es).Pairwise fun a b => Sep a.rng b.rng := by
  induction es generalizing R with
  | nil => exact List.Pairwise.nil
  | cons e es ih =>
    rw [kidsOf_cons, List.pairwise_cons]
    refine ⟨fun c hc x y hx hy => ?_, ih⟩
    exact lt_of_lt_of_le (kidsOf_rng hc hy).1.2 hx.2

omit [LinearOrder K] in
theorem KidsLe.refl (l : List (Kid K)) : KidsLe l l :=
  List.forall₂_same.2 fun _ _ => ⟨rfl, rfl, fun _ h => h⟩

omit [LinearOrder K] in
theorem KidsLe.trans {a b c : List (Kid K)} (h : KidsLe a b) (h' : KidsLe b c) : KidsLe a c := by
  induction h generalizing c with
  | nil => exact h'
  | cons hab _ ih =>
    cases h' with
    | cons hbc h' =>
      exact List.Forall₂.cons ⟨hab.key.trans hbc.key, hab.val.trans hbc.val,
        fun x hx => hbc.rng x (hab.rng x hx)⟩ (ih h')

omit [LinearOrder K] in
theorem KidsLe.append {a b c d : List (Kid K)} (h : KidsLe a c) (h' : KidsLe b d) :
    KidsLe (a ++ b) (c ++ d) :=
  forall₂_append h h'

omit [LinearOrder K] in
theorem KidsLe.entries {a b : List (Kid K)} (h : KidsLe a b) :
    a.map Kid.entry = b.map Kid.entry := by
  induction h with
  | nil => rfl
  | cons hab _ ih => simp only [List.map_cons, ih, Kid.entry, hab.key, hab.val]

omit [LinearOrder K] in
theorem KidsLe.head_val {a b : List (Kid K)} (h : KidsLe a b) :
    a.head?.map Kid.val = b.head?.map Kid.val := by
  cases h with
  | nil => rfl
  | cons hab _ => simp [hab.val]

/-- Kids of the same pairs in a range that is wider above their keys. -/
theorem kidsOf_le (h : ∀ e ∈ es, ∀ x, R x → e.1 ≤ x → R' x) :
    KidsLe (kidsOf R es) (kidsOf R' es) := by
  induction es generalizing R R' with
  | nil => exact List.Forall₂.nil
  | cons e es ih =>
    refine List.Forall₂.cons ⟨rfl, rfl, fun x hx => ⟨h e List.mem_cons_self x hx.1 hx.2, hx.2⟩⟩ ?_
    apply ih
    intro e' he' x hx hle
    exact ⟨h e' (List.mem_cons_of_mem _ he') x hx.1 hle, hx.2⟩

/-- The kids of two neighbouring spans, when one span takes over the pairs of both. -/
theorem kidsOf_join {W : K → Prop} (hsep : ∀ e ∈ A, ∀ x, R' x → x < e.1) (hA : ∀ x, R x → W x)
    (hB : ∀ x, R' x → W x) : KidsLe (kidsOf R A ++ kidsOf R' B) (kidsOf W (A ++ B)) := by
  rw [kidsOf_append]
  refine forall₂_append (kidsOf_le fun _ _ x hx _ => hA x hx) ?_
  exact kidsOf_le fun _ _ x hx _ => ⟨hB x hx, fun e he => hsep e he x hx⟩

/-- The kids of a span, when its pairs are cut after the one with key `s`. -/
theorem kidsOf_cut {s : K} (hA : ∀ e ∈ A, s ≤ e.1) (hs : ∃ e ∈ A, e.1 = s) :
    KidsLe (kidsOf R (A ++ B)) (kidsOf (fun x => R x ∧ s ≤ x) A ++
      kidsOf (fun x => R x ∧ x < s) B) := by
  rw [kidsOf_append]
  refine forall₂_append (kidsOf_le fun e he x hx hle => ⟨hx, le_trans (hA e he) hle⟩) ?_
  refine kidsOf_le fun e _ x hx _ => ⟨hx.1, ?_⟩
  obtain ⟨e, he, rfl⟩ := hs
  exact hx.2 e he

theorem kidsOf_mono (h : ∀ x, R x → R' x) : KidsLe (kidsOf R es) (kidsOf R' es) :=
  kidsOf_le fun _ _ x hx _ => h x hx

end Kids

/-! ## Kids of a level -/

section Level

variable {l P Q b : List (Span K)} {r : Span K} {cs cs' : List (Kid K)}

@[simp] theorem kids_nil : kids ([] : List (Span K)) = [] := rfl

@[simp] theorem kids_cons : kids (r :: l) = kidsOf r.rng r.es ++ kids l := by
  simp [kids]

@[simp] theorem kids_append : kids (P ++ Q) = kids P ++ kids Q := by
  simp [kids]

/-- The pairs of a level are those of its spans. -/
theorem kids_entries : (kids l).map Kid.entry = l.flatMap Span.es := by
  induction l with
  | nil => rfl
  | cons r l ih => simp [ih]

/-- Spans of a level lie apart, in descending order. -/
def Apart (l : List (Span K)) : Prop := l.Pairwise fun a b => Sep a.rng b.rng

/-- Kids lie apart, in descending order. -/
def KidsApart (cs : List (Kid K)) : Prop := cs.Pairwise fun a b => Sep a.rng b.rng

theorem kids_mem {c : Kid K} (hc : c ∈ kids l) : ∃ r ∈ l, c ∈ kidsOf r.rng r.es := by
  simpa [kids] using hc

theorem Apart.kids (h : Apart l) : KidsApart (kids l) := by
  induction l with
  | nil => exact List.Pairwise.nil
  | cons r l ih =>
    obtain ⟨h1, h2⟩ := List.pairwise_cons.1 h
    rw [kids_cons]
    refine List.pairwise_append.2 ⟨kidsOf_sep, ih h2, ?_⟩
    intro c hc d hd x y hx hy
    obtain ⟨r', hr', hd⟩ := kids_mem hd
    exact h1 r' hr' x y (kidsOf_rng hc hx).1 (kidsOf_rng hd hy).1

theorem KidsApart.of_le (h : KidsApart cs') (hle : KidsLe cs cs') : KidsApart cs := by
  induction hle with
  | nil => exact List.Pairwise.nil
  | cons hab hrest ih =>
    obtain ⟨h1, h2⟩ := List.pairwise_cons.1 h
    refine List.pairwise_cons.2 ⟨fun d hd x y hx hy => ?_, ih h2⟩
    obtain ⟨i, hi, rfl⟩ := List.getElem_of_mem hd
    have hi' := hi
    rw [hrest.length_eq] at hi'
    have hle := hrest.get hi hi'
    exact h1 _ (List.getElem_mem hi') x y (hab.rng x hx) (hle.rng y hy)

/-- At most one of the kids that lie apart has `x` in its range. -/
theorem KidsApart.unique {A B A' B' : List (Kid K)} {c d : Kid K} (h : KidsApart cs)
    (hc : cs = A ++ c :: B) (hd : cs = A' ++ d :: B') {x : K} (hx : c.rng x) (hy : d.rng x) :
    A = A' ∧ c = d ∧ B = B' :=
  pairwise_split_unique h hc hd (fun hs => lt_irrefl x (hs x x hx hy))
    fun hs => lt_irrefl x (hs x x hy hx)

/-- At most one of the spans that lie apart has `x` in its range. -/
theorem Apart.unique {P' Q' : List (Span K)} {r' : Span K} (h : Apart l) (hr : l = P ++ r :: Q)
    (hr' : l = P' ++ r' :: Q') {x : K} (hx : r.rng x) (hx' : r'.rng x) :
    P = P' ∧ r = r' ∧ Q = Q' :=
  pairwise_split_unique h hr hr' (fun hs => lt_irrefl x (hs x x hx hx'))
    fun hs => lt_irrefl x (hs x x hx' hx)

/-- Only the keys matter for a span to be in order. -/
theorem Span.Ok.of_keys {r' : Span K} (h : r.Ok) (hk : r'.es.map Prod.fst = r.es.map Prod.fst)
    (hr : ∀ x, r.rng x → r'.rng x) : r'.Ok := by
  refine ⟨?_, fun e he => ?_⟩
  · have hs := h.sorted
    rw [← List.pairwise_map (f := Prod.fst) (R := fun a b : K => b < a), ← hk] at hs
    exact List.pairwise_map.1 hs
  · have hm := List.mem_map_of_mem (f := Prod.fst) he
    rw [hk] at hm
    obtain ⟨e', he', hee⟩ := List.mem_map.1 hm
    exact hee ▸ hr _ (h.inRng e' he')

theorem links_apart (h : List.Forall₂ Link cs b) (hcs : KidsApart cs) : Apart b := by
  induction h with
  | nil => exact List.Pairwise.nil
  | cons hab hrest ih =>
    obtain ⟨h1, h2⟩ := List.pairwise_cons.1 hcs
    refine List.pairwise_cons.2 ⟨fun d hd x y hx hy => ?_, ih h2⟩
    obtain ⟨i, hi, rfl⟩ := List.getElem_of_mem hd
    have hi' := hi
    rw [← hrest.length_eq] at hi'
    exact h1 _ (List.getElem_mem hi') x y (hab.rng x hx) ((hrest.get hi' hi).rng y hy)

/-- The pairs of a level of spans that lie apart are in descending order. -/
theorem Apart.sorted (h : Apart l) (hok : ∀ r ∈ l, r.Ok) :
    (l.flatMap Span.es).Pairwise fun a b => b.1 < a.1 := by
  rw [← kids_entries, List.pairwise_map]
  have hkey : ∀ c ∈ Levels.kids l, c.rng c.key := by
    intro c hc
    obtain ⟨r, hr, hc⟩ := kids_mem hc
    exact kidsOf_key_rng (hok r hr).sorted (hok r hr).inRng hc
  refine List.Pairwise.imp_of_mem ?_ h.kids
  intro c d hc hd hsep
  exact hsep _ _ (hkey c hc) (hkey d hd)

omit [LinearOrder K] in
/-- Links to kids stay when the kids widen, whatever their keys. -/
theorem links_mono (h : List.Forall₂ Link cs b)
    (hw : List.Forall₂ (fun c d : Kid K => c.val = d.val ∧ ∀ x, c.rng x → d.rng x) cs cs') :
    List.Forall₂ Link cs' b := by
  induction h generalizing cs' with
  | nil => cases hw; exact List.Forall₂.nil
  | cons hl _ ih =>
    cases hw with
    | cons hcd hw =>
      exact List.Forall₂.cons ⟨hcd.1 ▸ hl.addr, fun x hx => hcd.2 x (hl.rng x hx)⟩ (ih hw)

omit [LinearOrder K] in
/-- What is collected along the kids is collected along the spans below. -/
theorem links_flatMap {α : Type} {f : Nat → List α} (h : List.Forall₂ Link cs b) :
    (cs.flatMap fun c => f c.val) = b.flatMap fun s => f s.addr := by
  induction h with
  | nil => rfl
  | cons hcs _ ih => rw [List.flatMap_cons, List.flatMap_cons, ih, hcs.addr]

omit [LinearOrder K] in
theorem links_le (h : List.Forall₂ Link cs b) (hle : KidsLe cs cs') : List.Forall₂ Link cs' b :=
  links_mono h (hle.imp fun _ _ hcd => ⟨hcd.val, hcd.rng⟩)

end Level

/-! ## A pair added to a level -/

section Insert

variable {cs cs' cs'' : List (Kid K)} {k : K} {v : Nat}

/-- The kids `cs'` are `cs`, possibly wider, with the pair `(k, v)` added inside
one span: it takes over the upper part of the range below the next pair. -/
def KidsIns (k : K) (v : Nat) (cs cs' : List (Kid K)) : Prop :=
  ∃ P R A B Q, KidsLe cs (P ++ kidsOf R (A ++ B) ++ Q) ∧
    KidsLe (P ++ kidsOf R (A ++ (k, v) :: B) ++ Q) cs' ∧
    R k ∧ (∀ e ∈ A, k < e.1) ∧ ∀ e ∈ B, e.1 < k

theorem KidsIns.of_le (h : KidsIns k v cs' cs'') (hle : KidsLe cs cs') :
    KidsIns k v cs cs'' := by
  obtain ⟨P, R, A, B, Q, h1, h2⟩ := h
  exact ⟨P, R, A, B, Q, hle.trans h1, h2⟩

/-- The pairs of the level are the old ones and the new one. -/
theorem KidsIns.entries (h : KidsIns k v cs cs') :
    ∃ A B, cs.map Kid.entry = A ++ B ∧ cs'.map Kid.entry = A ++ (k, v) :: B := by
  obtain ⟨P, R, A, B, Q, h1, h2, -⟩ := h
  refine ⟨P.map Kid.entry ++ A, B ++ Q.map Kid.entry, ?_, ?_⟩
  · rw [h1.entries]; simp
  · rw [← h2.entries]; simp

/-- The span that held `k` makes room for the new one on its left. -/
theorem KidsIns.links {P Q : List (Span K)} {r rl rr : Span K} (h : KidsIns k v cs cs')
    (hap : KidsApart cs') (hl : List.Forall₂ Link cs (P ++ r :: Q)) (hk : r.rng k)
    (hal : rl.addr = v) (har : rr.addr = r.addr) (hrl : ∀ x, rl.rng x → r.rng x ∧ k ≤ x)
    (hrr : ∀ x, rr.rng x → r.rng x ∧ x < k) :
    List.Forall₂ Link cs' (P ++ rl :: rr :: Q) := by
  obtain ⟨X, R, A, B, Y, h1, h2, hR, hA, hB⟩ := h
  have hl1 := links_le hl h1
  let new : Kid K := ⟨k, v, fun x => below R A x ∧ k ≤ x⟩
  have hnew : X ++ kidsOf R (A ++ (k, v) :: B) ++ Y =
      (X ++ kidsOf R A) ++ new :: (kidsOf (fun x => below R A x ∧ x < k) B ++ Y) := by
    simp [kidsOf_append, new]
  have hnewk : new.rng k := ⟨⟨hR, hA⟩, le_refl k⟩
  have hap2 : KidsApart _ := hnew ▸ hap.of_le h2
  obtain ⟨-, hright, hleft⟩ := List.pairwise_append.1 hap2
  rw [kidsOf_append, ← List.append_assoc, List.append_assoc _ _ Y] at hl1
  obtain ⟨L, L', hL, hlL, hlL'⟩ := forall₂_split hl1
  -- kids that also exist beside the new one do not have `k` in their range
  have notL : r ∉ L := by
    intro hr
    obtain ⟨d, hd, hdr⟩ := forall₂_mem_right hlL hr
    exact lt_irrefl k (hleft d hd new List.mem_cons_self k k (hdr.rng k hk) hnewk)
  have notY : ∀ d ∈ Y, ¬ Link d r := by
    intro d hd hdr
    exact lt_irrefl k ((List.pairwise_cons.1 hright).1 d (by simp [hd]) k k hnewk (hdr.rng k hk))
  cases B with
  | nil =>
    -- nothing of the span lies at or below `k`, so nothing is linked there
    exfalso
    have hr : r ∈ L ++ L' := hL ▸ by simp
    rcases List.mem_append.1 hr with hr | hr
    · exact notL hr
    · obtain ⟨d, hd, hdr⟩ := forall₂_mem_right hlL' hr
      exact notY d (by simpa using hd) hdr
  | cons e B =>
    rw [kidsOf_cons, List.cons_append] at hlL'
    cases hlL' with
    | @cons c s _ M hcs hM =>
      have notM : r ∉ M := by
        intro hr
        obtain ⟨d, hd, hdr⟩ := forall₂_mem_right hM hr
        rcases List.mem_append.1 hd with hd | hd
        · have := (kidsOf_rng hd (hdr.rng k hk)).1.2
          exact lt_asymm this (hB e (by simp))
        · exact notY d hd hdr
      obtain ⟨rfl, rfl, rfl⟩ := split_at_only hL notL notM
      refine links_le ?_ h2
      rw [hnew, kidsOf_cons, List.cons_append]
      refine forall₂_append hlL (List.Forall₂.cons ⟨hal.symm, fun x hx => ?_⟩
        (List.Forall₂.cons ⟨hcs.addr.trans har.symm, fun x hx => ?_⟩ ?_))
      · obtain ⟨h1, h2⟩ := hrl x hx
        exact ⟨(hcs.rng x h1).1, h2⟩
      · obtain ⟨h1, h2⟩ := hrr x hx
        exact ⟨⟨(hcs.rng x h1).1, h2⟩, (hcs.rng x h1).2⟩
      · refine links_le hM (KidsLe.append (kidsOf_mono fun x hx => ⟨⟨hx.1, ?_⟩, hx.2⟩)
          (KidsLe.refl Y))
        exact lt_trans hx.2 (hB e (by simp))

end Insert

/-! ## Stacks of levels -/

section Stack

/-- Each level sits below the kids of the next; the last is the root alone. -/
def Linked (root : Nat) : List (List (Span K)) → Prop
  | [] => False
  | [top] => ∃ r, top = [r] ∧ r.addr = root
  | b :: u :: rest => List.Forall₂ Link (kids u) b ∧ Linked root (u :: rest)

variable {root : Nat} {b b' u : List (Span K)} {rest : List (List (Span K))}

theorem Linked.apart : ∀ {ls : List (List (Span K))}, Linked root ls → ∀ l ∈ ls, Apart l
  | [top], h, l, hl => by
    obtain ⟨r, rfl, -⟩ := h
    rw [List.mem_singleton] at hl
    subst hl
    exact List.pairwise_singleton _ _
  | b :: u :: rest, h, l, hl => by
    have hup := Linked.apart h.2
    rcases List.mem_cons.1 hl with rfl | hl
    · exact links_apart h.1 (hup u List.mem_cons_self).kids
    · exact hup l hl

/-- The bottom level may be replaced by spans at the same addresses that lie
inside the old ones. -/
theorem Linked.shrink_bottom (h : Linked root (b :: rest))
    (hb : List.Forall₂ (fun r r' : Span K => r.addr = r'.addr ∧ ∀ x, r'.rng x → r.rng x) b b') :
    Linked root (b' :: rest) := by
  cases rest with
  | nil =>
    obtain ⟨r, rfl, hr⟩ := h
    cases hb with
    | cons hrr hnil =>
      cases hnil
      exact ⟨_, rfl, hrr.1 ▸ hr⟩
  | cons u rest =>
    refine ⟨?_, h.2⟩
    have hl := h.1
    clear h
    generalize kids u = cs at hl
    induction hl generalizing b' with
    | nil => cases hb; exact List.Forall₂.nil
    | cons hcr _ ih =>
      cases hb with
      | cons hrr hb =>
        exact List.Forall₂.cons ⟨hcr.addr.trans hrr.1, fun x hx => hcr.rng x (hrr.2 x hx)⟩ (ih hb)

end Stack

end Logfs.Levels
