import Mathlib.Data.List.Infix

/-!
# Folds over compressed radix tries

A finite list of entries `(key, value)` with keys over an alphabet `α` determines a compressed
radix trie: every node absorbs the longest prefix shared by the keys below it, except the root,
which absorbs nothing. A fold assigns to every node a result computed from its depth, its
absorbed path, the results in its slots and the value stored at it. The trie itself is never
built: the fold recurses on the entries below each slot.

## Main definitions

* `below p S`: the entries below the prefix `p`, with `p` removed from their keys
* `sharedPrefix S`, `path d S`: the longest shared prefix, and the path absorbed at depth `d`
* `fold node d S`: the fold of `node` over the trie of `S`
* `Reaches d S d' S'`: the node of `S'` lies in the trie of `S`

## Main results

* `trie_induction`: the induction principle of the recursion over nodes
* `fold_binding`: a fold whose node function is injective on the nodes it meets determines the
  entries
-/

namespace Radix

variable {α β γ : Type*}

/-- Keyed entries, in any order. -/
abbrev Entries (α β : Type*) := List (List α × β)

section Below

variable [DecidableEq α]

/-- The entries below `p`, with `p` removed from their keys. -/
def below (p : List α) (S : Entries α β) : Entries α β :=
  S.filterMap fun e => if p <+: e.1 then some (e.1.drop p.length, e.2) else none

/-- The first value stored at the key `k`. -/
def valueAt (S : Entries α β) (k : List α) : Option β :=
  (S.find? fun e => e.1 = k).map Prod.snd

@[simp] theorem below_nil (p : List α) : below p ([] : Entries α β) = [] := rfl

@[simp] theorem valueAt_nil (k : List α) : valueAt ([] : Entries α β) k = none := rfl

theorem below_cons_pos {p : List α} {e : List α × β} (h : p <+: e.1) (S : Entries α β) :
    below p (e :: S) = (e.1.drop p.length, e.2) :: below p S := by
  simp [below, h]

theorem below_cons_neg {p : List α} {e : List α × β} (h : ¬ p <+: e.1)
    (S : Entries α β) : below p (e :: S) = below p S := by
  simp [below, h]

@[simp] theorem below_empty (S : Entries α β) : below [] S = S := by
  simp [below]

theorem mem_below {p k : List α} {v : β} {S : Entries α β} :
    (k, v) ∈ below p S ↔ (p ++ k, v) ∈ S := by
  simp only [below, List.mem_filterMap]
  constructor
  · rintro ⟨⟨l, w⟩, hmem, h⟩
    split at h
    · next hp =>
      obtain ⟨r, rfl⟩ := hp
      simp only [List.drop_left, Option.some.injEq, Prod.mk.injEq] at h
      obtain ⟨rfl, rfl⟩ := h
      exact hmem
    · cases h
  · intro h
    exact ⟨_, h, by simp⟩

theorem below_filter_isPrefix (p : List α) (S : Entries α β) :
    below p (S.filter fun e => p <+: e.1) = below p S := by
  induction S with
  | nil => rfl
  | cons e S ih =>
    by_cases h : p <+: e.1
    · rw [List.filter_cons_of_pos (by simpa using h), below_cons_pos h,
        below_cons_pos h, ih]
    · rw [List.filter_cons_of_neg (by simpa using h), below_cons_neg h, ih]

/-- Going below `p` and then below `q` is going below `p ++ q`. -/
theorem below_below (p q : List α) (S : Entries α β) :
    below q (below p S) = below (p ++ q) S := by
  induction S with
  | nil => rfl
  | cons e S ih =>
    by_cases hp : p <+: e.1
    · obtain ⟨r, hr⟩ := hp
      rw [below_cons_pos ⟨r, hr⟩]
      by_cases hq : q <+: r
      · have hpq : p ++ q <+: e.1 := by rw [← hr]; exact (List.prefix_append_right_inj p).mpr hq
        rw [below_cons_pos (by simpa [← hr] using hq), below_cons_pos hpq, ih]
        simp [← hr]
      · have hpq : ¬ p ++ q <+: e.1 := by
          rw [← hr]
          exact fun h => hq ((List.prefix_append_right_inj p).mp h)
        rw [below_cons_neg (by simpa [← hr] using hq),
          below_cons_neg hpq, ih]
    · have hpq : ¬ p ++ q <+: e.1 := fun h => hp ((List.prefix_append p q).trans h)
      rw [below_cons_neg hp, below_cons_neg hpq, ih]

theorem below_ne_nil_iff {p : List α} {S : Entries α β} :
    below p S ≠ [] ↔ ∃ e ∈ S, p <+: e.1 := by
  constructor
  · intro h
    obtain ⟨⟨k, v⟩, hmem⟩ := List.exists_mem_of_ne_nil _ h
    exact ⟨_, mem_below.mp hmem, List.prefix_append p k⟩
  · rintro ⟨⟨l, v⟩, hmem, ⟨k, rfl⟩⟩
    exact List.ne_nil_of_mem (mem_below.mpr hmem)

theorem valueAt_cons (e : List α × β) (S : Entries α β) (k : List α) :
    valueAt (e :: S) k = if e.1 = k then some e.2 else valueAt S k := by
  by_cases h : e.1 = k <;> simp [valueAt, h]

theorem valueAt_append (S T : Entries α β) (k : List α) :
    valueAt (S ++ T) k = (valueAt S k).or (valueAt T k) := by
  unfold valueAt
  rw [List.find?_append]
  cases S.find? fun e => e.1 = k <;> rfl

theorem valueAt_below (p k : List α) (S : Entries α β) :
    valueAt (below p S) k = valueAt S (p ++ k) := by
  induction S with
  | nil => rfl
  | cons e S ih =>
    by_cases hp : p <+: e.1
    · obtain ⟨r, hr⟩ := hp
      rw [below_cons_pos ⟨r, hr⟩, valueAt_cons, valueAt_cons, ih, ← hr]
      simp
    · have hne : e.1 ≠ p ++ k := fun h => hp (h ▸ List.prefix_append p k)
      rw [below_cons_neg hp, valueAt_cons, if_neg hne, ih]

theorem valueAt_eq_none_of_forall {S : Entries α β} {k : List α} (h : ∀ e ∈ S, e.1 ≠ k) :
    valueAt S k = none := by
  simp only [valueAt, Option.map_eq_none_iff, List.find?_eq_none]
  intro e he
  simpa using h e he

theorem mem_of_valueAt {S : Entries α β} {k : List α} {v : β} (h : valueAt S k = some v) :
    (k, v) ∈ S := by
  obtain ⟨e, hfind, rfl⟩ := Option.map_eq_some_iff.mp h
  have hkey : e.1 = k := by simpa using List.find?_some hfind
  rw [← hkey]
  exact List.mem_of_find?_eq_some hfind

/-- Where the keys are distinct, the value at a key is the one stored with it. -/
theorem valueAt_eq_some_iff {S : Entries α β} (hS : (S.map Prod.fst).Nodup) {k : List α} {v : β} :
    valueAt S k = some v ↔ (k, v) ∈ S := by
  induction S with
  | nil => simp
  | cons e S ih =>
    obtain ⟨hnot, hS⟩ := List.nodup_cons.mp hS
    rw [valueAt_cons]
    by_cases hk : e.1 = k
    · subst hk
      have hfresh : (e.1, v) ∉ S := fun h => hnot (List.mem_map.mpr ⟨_, h, rfl⟩)
      rw [if_pos rfl, List.mem_cons]
      constructor
      · intro h
        exact Or.inl (Prod.ext rfl (Option.some.inj h).symm)
      · rintro (h | h)
        · rw [← h]
        · exact absurd h hfresh
    · rw [if_neg hk, ih hS, List.mem_cons]
      constructor
      · exact Or.inr
      · rintro (h | h)
        · exact absurd (by rw [← h]) hk
        · exact h

end Below

/-! ## The shared prefix -/

section SharedPrefix

variable [DecidableEq α]

/-- The longest common prefix of two strings. -/
def commonPrefix : List α → List α → List α
  | a :: k, b :: l => if a = b then a :: commonPrefix k l else []
  | _, _ => []

@[simp] theorem commonPrefix_nil_left (l : List α) : commonPrefix [] l = [] := by
  cases l <;> rfl

@[simp] theorem commonPrefix_nil_right (k : List α) : commonPrefix k [] = [] := by
  cases k <;> rfl

theorem commonPrefix_append (p k l : List α) :
    commonPrefix (p ++ k) (p ++ l) = p ++ commonPrefix k l := by
  induction p with
  | nil => rfl
  | cons a p ih => simp [commonPrefix, ih]

/-- A string is a prefix of the longest common prefix exactly when it is a common prefix. -/
theorem prefix_commonPrefix_iff {p k l : List α} :
    p <+: commonPrefix k l ↔ p <+: k ∧ p <+: l := by
  induction p generalizing k l with
  | nil => simp
  | cons a p ih =>
    cases k with
    | nil => simp
    | cons b k =>
      cases l with
      | nil => simp
      | cons c l =>
        by_cases h : b = c
        · subst h
          simp only [commonPrefix, if_true, List.cons_prefix_cons, ih]
          tauto
        · simp only [commonPrefix, h, if_false, List.prefix_nil, List.cons_prefix_cons]
          constructor
          · intro hp
            cases hp
          · rintro ⟨⟨rfl, -⟩, rfl, -⟩
            exact absurd rfl h

/-- The longest prefix shared by all keys. -/
def sharedPrefix : Entries α β → List α
  | [] => []
  | [e] => e.1
  | e :: f :: S => commonPrefix e.1 (sharedPrefix (f :: S))

/-- A string is a prefix of the shared prefix exactly when every key extends it. -/
theorem prefix_sharedPrefix_iff {p : List α} {S : Entries α β} (hS : S ≠ []) :
    p <+: sharedPrefix S ↔ ∀ e ∈ S, p <+: e.1 := by
  induction S with
  | nil => exact absurd rfl hS
  | cons e S ih =>
    cases S with
    | nil => simp [sharedPrefix]
    | cons f S =>
      rw [sharedPrefix, prefix_commonPrefix_iff, ih (by simp)]
      simp

theorem sharedPrefix_isPrefix {S : Entries α β} {e : List α × β} (he : e ∈ S) :
    sharedPrefix S <+: e.1 :=
  (prefix_sharedPrefix_iff (List.ne_nil_of_mem he)).mp (List.prefix_refl _) e he

/-- Where all keys extend `p`, the shared prefix is `p` and what the keys share after it. -/
theorem sharedPrefix_below {p : List α} {S : Entries α β} (hS : S ≠ [])
    (h : ∀ e ∈ S, p <+: e.1) : sharedPrefix S = p ++ sharedPrefix (below p S) := by
  induction S with
  | nil => exact absurd rfl hS
  | cons e S ih =>
    obtain ⟨k, hk⟩ := h e List.mem_cons_self
    rw [below_cons_pos ⟨k, hk⟩]
    cases S with
    | nil => simp [sharedPrefix, ← hk]
    | cons f S =>
      have hf : ∀ g ∈ f :: S, p <+: g.1 := fun g hg => h g (List.mem_cons_of_mem e hg)
      rw [sharedPrefix, ih (by simp) hf, below_cons_pos (hf f List.mem_cons_self), sharedPrefix,
        ← commonPrefix_append, ← hk, List.drop_left]

/-- The path absorbed by the node of `S` at depth `d`: nothing at the root, the shared prefix
below it. -/
def path (d : ℕ) (S : Entries α β) : List α := if d = 0 then [] else sharedPrefix S

@[simp] theorem path_zero (S : Entries α β) : path 0 S = [] := rfl

theorem path_of_ne_zero {d : ℕ} (hd : d ≠ 0) (S : Entries α β) : path d S = sharedPrefix S :=
  if_neg hd

theorem path_isPrefix {d : ℕ} {S : Entries α β} {e : List α × β} (he : e ∈ S) :
    path d S <+: e.1 := by
  rw [path]
  split
  · exact List.nil_prefix
  · exact sharedPrefix_isPrefix he

/-- What every symbol of the keys satisfies, every symbol of the path satisfies. -/
theorem forall_mem_path {motive : α → Prop} {S : Entries α β}
    (h : ∀ e ∈ S, ∀ x ∈ e.1, motive x) (d : ℕ) : ∀ x ∈ path d S, motive x := by
  intro x hx
  cases S with
  | nil => simp [path, sharedPrefix] at hx
  | cons e S =>
    exact h e List.mem_cons_self x ((path_isPrefix List.mem_cons_self).subset hx)

end SharedPrefix

/-! ## The fold -/

section Fold

variable [DecidableEq α]

/-- The total length of the keys, which every step to a slot decreases. -/
def size (S : Entries α β) : ℕ := S.foldr (fun e n => e.1.length + n) 0

theorem size_below_le (p : List α) (S : Entries α β) : size (below p S) ≤ size S := by
  induction S with
  | nil => simp
  | cons e S ih =>
    by_cases h : p <+: e.1
    · rw [below_cons_pos h]
      simp only [size, List.foldr_cons, List.length_drop] at ih ⊢
      omega
    · rw [below_cons_neg h]
      simp only [size, List.foldr_cons] at ih ⊢
      omega

theorem size_below_lt {p : List α} (hp : p ≠ []) {S : Entries α β} (h : below p S ≠ []) :
    size (below p S) < size S := by
  induction S with
  | nil => simp at h
  | cons e S ih =>
    by_cases he : p <+: e.1
    · have hpos : 0 < p.length := List.length_pos_iff.mpr hp
      have hle : p.length ≤ e.1.length := he.length_le
      have hrest := size_below_le p S
      rw [below_cons_pos he]
      simp only [size, List.foldr_cons, List.length_drop] at hrest ⊢
      omega
    · rw [below_cons_neg he] at h ⊢
      have hlt := ih h
      simp only [size, List.foldr_cons] at hlt ⊢
      omega

/-- The entries below the slot `a` of the node of `S` at depth `d`. -/
def slot (d : ℕ) (S : Entries α β) (a : α) : Entries α β := below (path d S ++ [a]) S

/-- The slots of a node under the prefix `p`. -/
theorem slot_below (d : ℕ) (p : List α) (S : Entries α β) (a : α) :
    slot d (below p S) a = below (p ++ path d (below p S) ++ [a]) S := by
  rw [slot, below_below, List.append_assoc]

theorem size_slot_lt {d : ℕ} {S : Entries α β} {a : α} (h : slot d S a ≠ []) :
    size (slot d S a) < size S :=
  size_below_lt (by simp) h

/-- The fold of `node` over the trie of `S`, the node at depth `d`: `node` receives the depth,
the absorbed path, the results of the occupied slots and the value stored at the node. -/
def fold (node : ℕ → List α → (α → Option γ) → Option β → γ) (d : ℕ) (S : Entries α β) : γ :=
  node d (path d S)
    (fun a =>
      if h : slot d S a = [] then none
      else some (fold node (d + (path d S).length + 1) (slot d S a)))
    (valueAt S (path d S))
termination_by size S
decreasing_by exact size_slot_lt h

variable (node : ℕ → List α → (α → Option γ) → Option β → γ)

/-- The results in the slots of the node of `S` at depth `d`. -/
def slots (d : ℕ) (S : Entries α β) (a : α) : Option γ :=
  if slot d S a = [] then none
  else some (fold node (d + (path d S).length + 1) (slot d S a))

theorem fold_eq (d : ℕ) (S : Entries α β) :
    fold node d S = node d (path d S) (slots node d S) (valueAt S (path d S)) := by
  rw [fold]
  rfl

variable {node}

theorem slots_of_nil {d : ℕ} {S : Entries α β} {a : α} (h : slot d S a = []) :
    slots node d S a = none :=
  if_pos h

theorem slots_of_ne_nil {d : ℕ} {S : Entries α β} {a : α} (h : slot d S a ≠ []) :
    slots node d S a = some (fold node (d + (path d S).length + 1) (slot d S a)) :=
  if_neg h

/-- The induction principle of the recursion over nodes: what holds of a node when it holds in
all its occupied slots holds of every node. -/
theorem trie_induction {motive : ℕ → Entries α β → Prop}
    (step : ∀ d S,
      (∀ a, slot d S a ≠ [] → motive (d + (path d S).length + 1) (slot d S a)) → motive d S) :
    ∀ d S, motive d S := by
  intro d S
  induction hn : size S using Nat.strong_induction_on generalizing d S with
  | _ n ih =>
    subst hn
    exact step d S fun a ha => ih _ (size_slot_lt ha) _ _ rfl

/-- The node of `S'` at depth `d'` lies in the trie of `S`, whose node is at depth `d`. -/
inductive Reaches (d : ℕ) (S : Entries α β) : ℕ → Entries α β → Prop
  | refl : Reaches d S d S
  | down {d' : ℕ} {S' : Entries α β} (a : α) : Reaches d S d' S' → slot d' S' a ≠ [] →
      Reaches d S (d' + (path d' S').length + 1) (slot d' S' a)

theorem Reaches.trans {d₁ d₂ d₃ : ℕ} {S₁ S₂ S₃ : Entries α β} (h₁ : Reaches d₁ S₁ d₂ S₂)
    (h₂ : Reaches d₂ S₂ d₃ S₃) : Reaches d₁ S₁ d₃ S₃ := by
  induction h₂ with
  | refl => exact h₁
  | down a _ hne ih => exact ih.down a hne

/-- The nodes in an occupied slot lie in the trie. -/
theorem Reaches.of_slot {d d' : ℕ} {S S' : Entries α β} {a : α} (hne : slot d S a ≠ [])
    (h : Reaches (d + (path d S).length + 1) (slot d S a) d' S') : Reaches d S d' S' :=
  (Reaches.down a Reaches.refl hne).trans h

/-- A node of the trie is its root or lies in one of the root's occupied slots. -/
theorem Reaches.cases_head {d d' : ℕ} {S S' : Entries α β} (h : Reaches d S d' S') :
    (d' = d ∧ S' = S) ∨ ∃ a, slot d S a ≠ [] ∧
      Reaches (d + (path d S).length + 1) (slot d S a) d' S' := by
  induction h with
  | refl => exact Or.inl ⟨rfl, rfl⟩
  | down a _ hne ih =>
    right
    rcases ih with ⟨rfl, rfl⟩ | ⟨b, hb, hr⟩
    · exact ⟨a, hne, Reaches.refl⟩
    · exact ⟨b, hb, hr.down a hne⟩

/-- What the slots preserve, every node of the trie has. -/
theorem Reaches.preserves {motive : ℕ → Entries α β → Prop}
    (step : ∀ d S a, slot d S a ≠ [] → motive d S →
      motive (d + (path d S).length + 1) (slot d S a))
    {d d' : ℕ} {S S' : Entries α β} (h : Reaches d S d' S') (hS : motive d S) : motive d' S' := by
  induction h with
  | refl => exact hS
  | down a _ hne ih => exact step _ _ a hne ih

/-! ### Comparing folds -/

/-- Folds of node functions that agree at the nodes of the trie coincide. -/
theorem fold_congr {node node' : ℕ → List α → (α → Option γ) → Option β → γ} :
    ∀ (d : ℕ) (S : Entries α β),
      (∀ d' S', Reaches d S d' S' → ∀ s,
        node d' (path d' S') s (valueAt S' (path d' S')) =
          node' d' (path d' S') s (valueAt S' (path d' S'))) →
      fold node d S = fold node' d S := by
  refine trie_induction fun d S ih h => ?_
  have hslots : slots node d S = slots node' d S := by
    funext a
    by_cases ha : slot d S a = []
    · rw [slots_of_nil ha, slots_of_nil ha]
    · rw [slots_of_ne_nil ha, slots_of_ne_nil ha,
        ih a ha fun d' S' hr => h d' S' (hr.of_slot ha)]
  rw [fold_eq, fold_eq, hslots, h d S Reaches.refl]

/-- Two folds of one trie that agree at the root agree at every node, when agreement at a node
passes to its slots; what agreement at a node entails then holds at every node. -/
theorem fold_agree {node node' : ℕ → List α → (α → Option γ) → Option β → γ}
    {P : ℕ → Entries α β → Prop} {d : ℕ} {S : Entries α β}
    (h : fold node d S = fold node' d S)
    (pass : ∀ d' S', Reaches d S d' S' → fold node d' S' = fold node' d' S' →
      P d' S' ∧ slots node d' S' = slots node' d' S')
    {d' : ℕ} {S' : Entries α β} (hr : Reaches d S d' S') : P d' S' := by
  suffices hagree : fold node d' S' = fold node' d' S' from (pass d' S' hr hagree).1
  induction hr with
  | refl => exact h
  | down a hr hne ih =>
    have hslot := congrFun (pass _ _ hr ih).2 a
    rw [slots_of_ne_nil hne, slots_of_ne_nil hne] at hslot
    exact Option.some.inj hslot

/-- The keys that do not extend the path of a node are absent from its entries. -/
theorem valueAt_eq_none_of_not_isPrefix {d : ℕ} {S : Entries α β} {k : List α}
    (hk : ¬ path d S <+: k) : valueAt S k = none :=
  valueAt_eq_none_of_forall fun _ he h => hk (h ▸ path_isPrefix he)

/-- **Binding**: where equal results at two nodes of the tries of `S` and `T` come from equal
paths, equal slots and equal values, equal folds come from equal entries. -/
theorem fold_binding {node : ℕ → List α → (α → Option γ) → Option β → γ} :
    ∀ (d : ℕ) (S T : Entries α β),
      (∀ d' S' T', Reaches d S d' S' → Reaches d T d' T' →
        fold node d' S' = fold node d' T' →
        path d' S' = path d' T' ∧ slots node d' S' = slots node d' T' ∧
          valueAt S' (path d' S') = valueAt T' (path d' T')) →
      fold node d S = fold node d T → ∀ k, valueAt S k = valueAt T k := by
  refine trie_induction fun d S ih T inj h k => ?_
  obtain ⟨hpath, hslots, hvalue⟩ := inj d S T Reaches.refl Reaches.refl h
  -- a key without the path has no value on either side
  by_cases hk : path d S <+: k
  swap
  · rw [valueAt_eq_none_of_not_isPrefix hk, valueAt_eq_none_of_not_isPrefix (hpath ▸ hk)]
  obtain ⟨r, rfl⟩ := hk
  cases r with
  | nil => simpa [hpath] using hvalue
  -- a longer key leads to a slot, which both tries have or neither
  | cons a r =>
    have hS : valueAt S (path d S ++ a :: r) = valueAt (slot d S a) r := by
      rw [slot, valueAt_below, List.append_assoc, List.singleton_append]
    have hT : valueAt T (path d S ++ a :: r) = valueAt (slot d T a) r := by
      rw [slot, valueAt_below, hpath, List.append_assoc, List.singleton_append]
    rw [hS, hT]
    have ha := congrFun hslots a
    by_cases hnS : slot d S a = [] <;> by_cases hnT : slot d T a = []
    · rw [hnS, hnT]
    · rw [slots_of_nil hnS, slots_of_ne_nil hnT] at ha
      cases ha
    · rw [slots_of_ne_nil hnS, slots_of_nil hnT] at ha
      cases ha
    -- both have it, and their nodes are equal, so the induction applies below it
    · rw [slots_of_ne_nil hnS, slots_of_ne_nil hnT, ← hpath, Option.some.injEq] at ha
      refine ih a hnS _ (fun d' S' T' hrS hrT => ?_) ha r
      exact inj d' S' T' (hrS.of_slot hnS) ((hpath ▸ hrT : Reaches _ _ d' T').of_slot hnT)

end Fold

end Radix
