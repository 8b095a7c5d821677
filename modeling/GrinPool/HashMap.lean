import Mathlib.Data.List.Nodup

/-!
# `std::collections::HashMap` as an association list

The pool keeps three maps (`pool.rs`, lines 117-119): the worker registry, the duplicate set and the
job-version map. Each is the list of its live entries; that the keys are pairwise distinct is a field of
the structure, so no operation can build a map with a repeated key. The list order is the map's iteration
order. A Rust `HashMap` has no specified order, so the runs of `GrinPool.Run` may permute the registry
between any two steps, and every loop is proved for whatever order it is given.

`iterMut` is the pool's `for (k, v) in m.iter_mut()` loop, with the state its body threads (the duplicate
set, the log, the list of re-keyed ids): the keys stay where they are and only the values change. The
facts the rest of the development uses are `get?_eq_some_iff` (a lookup is membership of the pair) and the
effect of each operation on `keys`, `get?` and `entries`.
-/

namespace GrinPool

/-- A map with pairwise distinct keys, listed in iteration order. -/
@[ext]
structure HashMap (α β : Type) where
  entries : List (α × β)
  nodup : (entries.map Prod.fst).Nodup

namespace HashMap

variable {α β σ γ : Type}

instance [DecidableEq α] [DecidableEq β] : DecidableEq (HashMap α β) := fun m m' =>
  decidable_of_iff (m.entries = m'.entries) ⟨HashMap.ext, congrArg _⟩

/-- `HashMap::new()`. -/
def empty : HashMap α β := ⟨[], List.nodup_nil⟩

/-- The keys, in iteration order. -/
def keys (m : HashMap α β) : List α := m.entries.map Prod.fst

/-- `HashMap::len`. -/
def len (m : HashMap α β) : Nat := m.entries.length

theorem nodup_keys_concat {l : List (α × β)} {k : α} {v : β} (hl : (l.map Prod.fst).Nodup)
    (hk : k ∉ l.map Prod.fst) : ((l ++ [(k, v)]).map Prod.fst).Nodup := by
  rw [List.map_append, List.nodup_append]
  exact ⟨hl, List.nodup_singleton k, by simpa [List.disjoint_singleton] using hk⟩

/-- One pass of a loop body over entries in order, threading a state. -/
def iterMutList (f : σ → α → β → σ × β) : σ → List (α × β) → σ × List (α × β)
  | s, [] => (s, [])
  | s, (k, v) :: l =>
    let r := f s k v
    let t := iterMutList f r.1 l
    (t.1, (k, r.2) :: t.2)

theorem map_fst_iterMutList (f : σ → α → β → σ × β) (s : σ) (l : List (α × β)) :
    (iterMutList f s l).2.map Prod.fst = l.map Prod.fst := by
  induction l generalizing s with
  | nil => rfl
  | cons e l ih => simp [iterMutList, ih]

theorem iterMutList_fst_induction (f : σ → α → β → σ × β) (P : σ → Prop)
    (hf : ∀ s k v, P s → P (f s k v).1) : ∀ {s : σ} (l : List (α × β)), P s → P (iterMutList f s l).1
  | _, [], h => h
  | _, (k, v) :: l, h => iterMutList_fst_induction f P hf l (hf _ k v h)

/-- `for (k, v) in m.iter_mut() { body }`, the body threading a state of type `σ`. -/
def iterMut (m : HashMap α β) (s : σ) (f : σ → α → β → σ × β) : σ × HashMap α β :=
  ((iterMutList f s m.entries).1,
    ⟨(iterMutList f s m.entries).2, (map_fst_iterMutList f s _).symm ▸ m.nodup⟩)

theorem eq_of_mem_of_fst_eq (m : HashMap α β) {e e' : α × β} (he : e ∈ m.entries)
    (he' : e' ∈ m.entries) (h : e.1 = e'.1) : e = e' :=
  List.inj_on_of_nodup_map m.nodup he he' h

theorem mem_keys_iff {m : HashMap α β} {k : α} : k ∈ m.keys ↔ ∃ v, (k, v) ∈ m.entries := by
  simp [keys]

@[simp] theorem entries_empty : (empty : HashMap α β).entries = [] := rfl

@[simp] theorem keys_empty : (empty : HashMap α β).keys = [] := rfl

theorem entries_iterMut (m : HashMap α β) (s : σ) (f : σ → α → β → σ × β) :
    (m.iterMut s f).2.entries = (iterMutList f s m.entries).2 := rfl

theorem keys_iterMut (m : HashMap α β) (s : σ) (f : σ → α → β → σ × β) :
    (m.iterMut s f).2.keys = m.keys :=
  map_fst_iterMutList f s _

/-! ### What the values hold -/

/-- What the values hold, in iteration order: `g` of each value, concatenated. -/
def collect (g : β → List γ) (m : HashMap α β) : List γ := m.entries.flatMap fun e => g e.2

theorem flatMap_sublist_of_sublist (g : β → List γ) {l₁ l₂ : List (α × β)} (h : l₁.Sublist l₂) :
    (l₁.flatMap fun e => g e.2).Sublist (l₂.flatMap fun e => g e.2) := by
  induction h with
  | slnil => exact .slnil
  | cons e _ ih => exact ih.trans (List.sublist_append_right _ _)
  | cons₂ e _ ih => exact ih.append_left _

theorem flatMap_iterMutList (g : β → List γ) (f : σ → α → β → σ × β)
    (hf : ∀ s k v, g (f s k v).2 = g v) :
    ∀ (s : σ) (l : List (α × β)), ((iterMutList f s l).2.flatMap fun e => g e.2) = l.flatMap fun e => g e.2
  | _, [] => rfl
  | s, (k, v) :: l => by simp only [iterMutList, List.flatMap_cons, hf, flatMap_iterMutList g f hf _ l]

theorem collect_iterMut (g : β → List γ) (m : HashMap α β) (s : σ) (f : σ → α → β → σ × β)
    (hf : ∀ s k v, g (f s k v).2 = g v) : (m.iterMut s f).2.collect g = m.collect g :=
  flatMap_iterMutList g f hf s m.entries

theorem flatMap_iterMutList_sublist (g : β → List γ) (f : σ → α → β → σ × β)
    (hf : ∀ s k v, (g (f s k v).2).Sublist (g v)) :
    ∀ (s : σ) (l : List (α × β)),
      ((iterMutList f s l).2.flatMap fun e => g e.2).Sublist (l.flatMap fun e => g e.2)
  | _, [] => .slnil
  | s, (k, v) :: l => by
    simp only [iterMutList, List.flatMap_cons]
    exact (hf s k v).append (flatMap_iterMutList_sublist g f hf _ l)

theorem collect_iterMut_sublist (g : β → List γ) (m : HashMap α β) (s : σ) (f : σ → α → β → σ × β)
    (hf : ∀ s k v, (g (f s k v).2).Sublist (g v)) : ((m.iterMut s f).2.collect g).Sublist (m.collect g) :=
  flatMap_iterMutList_sublist g f hf s m.entries

/-- A loop whose body adds to what a value holds only what `Q` admits: all the map holds after it was held
before or is admitted by `Q`. -/
theorem mem_flatMap_iterMutList (g : β → List γ) (f : σ → α → β → σ × β) (Q : γ → Prop)
    (hf : ∀ s k v, ∀ x ∈ g (f s k v).2, x ∈ g v ∨ Q x) :
    ∀ (s : σ) (l : List (α × β)), ∀ x ∈ (iterMutList f s l).2.flatMap (fun e => g e.2),
      x ∈ l.flatMap (fun e => g e.2) ∨ Q x
  | _, [], _, hx => by simp [iterMutList] at hx
  | s, (k, v) :: l, x, hx => by
    simp only [iterMutList, List.flatMap_cons, List.mem_append] at hx ⊢
    rcases hx with hx | hx
    · exact (hf s k v x hx).imp_left .inl
    · exact (mem_flatMap_iterMutList g f Q hf _ l x hx).imp_left .inr

theorem mem_collect_iterMut (g : β → List γ) (m : HashMap α β) (s : σ) (f : σ → α → β → σ × β)
    (Q : γ → Prop) (hf : ∀ s k v, ∀ x ∈ g (f s k v).2, x ∈ g v ∨ Q x) :
    ∀ x ∈ (m.iterMut s f).2.collect g, x ∈ m.collect g ∨ Q x :=
  mem_flatMap_iterMutList g f Q hf s m.entries

theorem iterMutList_append_singleton (f : σ → α → β → σ × β) (s : σ) (l : List (α × β)) (k : α) (v : β) :
    iterMutList f s (l ++ [(k, v)]) =
      ((f (iterMutList f s l).1 k v).1, (iterMutList f s l).2 ++ [(k, (f (iterMutList f s l).1 k v).2)]) := by
  induction l generalizing s with
  | nil => rfl
  | cons e l ih => simp [iterMutList, ih]

theorem forall_iterMutList (f : σ → α → β → σ × β) {Q Q' : β → Prop} (hf : ∀ s k v, Q v → Q' (f s k v).2) :
    ∀ (s : σ) (l : List (α × β)), (∀ e ∈ l, Q e.2) → ∀ e ∈ (iterMutList f s l).2, Q' e.2
  | _, [], _, _, he => nomatch he
  | s, (k, v) :: l, hl, e, he => by
    rcases List.mem_cons.1 he with rfl | he
    · exact hf s k v (hl _ (List.mem_cons_self _ _))
    · exact forall_iterMutList f hf _ l (fun e he => hl e (List.mem_cons_of_mem _ he)) e he

theorem forall_iterMut (m : HashMap α β) (s : σ) (f : σ → α → β → σ × β) (Q Q' : β → Prop)
    (hm : ∀ e ∈ m.entries, Q e.2) (hf : ∀ s k v, Q v → Q' (f s k v).2) :
    ∀ e ∈ (m.iterMut s f).2.entries, Q' e.2 :=
  forall_iterMutList f hf s m.entries hm

theorem iterMutList_snd (f : σ → α → β → σ × β) (h : α → β → β) (hf : ∀ s k v, (f s k v).2 = h k v) :
    ∀ (s : σ) (l : List (α × β)), (iterMutList f s l).2 = l.map fun e => (e.1, h e.1 e.2)
  | _, [] => rfl
  | s, (k, v) :: l => by simp [iterMutList, hf, iterMutList_snd f h hf _ l]

theorem iterMutList_fst_log (f : List γ → α → β → List γ × β) (g : α → β → List γ)
    (hf : ∀ t k v, (f t k v).1 = t ++ g k v) :
    ∀ (t : List γ) (l : List (α × β)), (iterMutList f t l).1 = t ++ l.flatMap fun e => g e.1 e.2
  | t, [] => by simp [iterMutList]
  | t, (k, v) :: l => by simp [iterMutList, hf, iterMutList_fst_log f g hf _ l]

/-- A loop whose body logs and rewrites each entry by itself, over two orders of the same entries and after
two orders of the same log, ends with two orders of the same log and of the same entries. -/
theorem iterMut_perm_of_log {m m' : HashMap α β} (hm : m'.entries.Perm m.entries) {t t' : List γ}
    (ht : t'.Perm t) (f : List γ → α → β → List γ × β) (g : α → β → List γ) (h : α → β → β)
    (hf : ∀ t k v, f t k v = (t ++ g k v, h k v)) :
    (m'.iterMut t' f).1.Perm (m.iterMut t f).1 ∧ (m'.iterMut t' f).2.entries.Perm (m.iterMut t f).2.entries := by
  simp only [iterMut, iterMutList_fst_log f g (fun t k v => by rw [hf]), iterMutList_snd f h fun t k v => by rw [hf]]
  exact ⟨ht.append (hm.flatMap_right _), hm.map _⟩

/-- A loop whose body moves what a value holds to and from the threaded state, as `A` and `B` count it,
does so over the whole loop. -/
theorem flatMap_iterMutList_balance [DecidableEq γ] (g : β → List γ) (A B : σ → List γ)
    (f : σ → α → β → σ × β)
    (hf : ∀ s k v, (A s ++ (B (f s k v).1 ++ g (f s k v).2)).Perm (A (f s k v).1 ++ (B s ++ g v))) :
    ∀ (s : σ) (l : List (α × β)),
      (A s ++ (B (iterMutList f s l).1 ++ (iterMutList f s l).2.flatMap fun e => g e.2)).Perm
        (A (iterMutList f s l).1 ++ (B s ++ l.flatMap fun e => g e.2))
  | _, [] => .refl _
  | s, (k, v) :: l => by
    have h₁ := List.perm_iff_count.1 (hf s k v)
    have h₂ := List.perm_iff_count.1 (flatMap_iterMutList_balance g A B f hf (f s k v).1 l)
    refine List.perm_iff_count.2 fun x => ?_
    have := h₁ x
    have := h₂ x
    simp only [iterMutList, List.flatMap_cons, List.count_append] at *
    omega

theorem collect_iterMut_balance [DecidableEq γ] (g : β → List γ) (A B : σ → List γ) (m : HashMap α β)
    (s : σ) (f : σ → α → β → σ × β)
    (hf : ∀ s k v, (A s ++ (B (f s k v).1 ++ g (f s k v).2)).Perm (A (f s k v).1 ++ (B s ++ g v))) :
    (A s ++ (B (m.iterMut s f).1 ++ (m.iterMut s f).2.collect g)).Perm
      (A (m.iterMut s f).1 ++ (B s ++ m.collect g)) :=
  flatMap_iterMutList_balance g A B f hf s m.entries

variable [DecidableEq α]

/-- `HashMap::get`. -/
def get? (m : HashMap α β) (k : α) : Option β := (m.entries.find? (·.1 = k)).map Prod.snd

/-- `HashMap::contains_key`. -/
def containsKey (m : HashMap α β) (k : α) : Bool := k ∈ m.keys

/-- The entries with the value under `k` replaced by `v`. -/
def setValue (k : α) (v : β) (l : List (α × β)) : List (α × β) :=
  l.map fun e => if e.1 = k then (k, v) else e

theorem map_fst_setValue (k : α) (v : β) (l : List (α × β)) :
    (setValue k v l).map Prod.fst = l.map Prod.fst := by
  simp only [setValue, List.map_map]
  congr 1
  funext e
  by_cases h : e.1 = k <;> simp [h]

/-- `HashMap::insert`: a present key gets the new value in place, a new key is added last. -/
def insert (m : HashMap α β) (k : α) (v : β) : HashMap α β :=
  if h : k ∈ m.keys then ⟨setValue k v m.entries, (map_fst_setValue k v _).symm ▸ m.nodup⟩
  else ⟨m.entries ++ [(k, v)], nodup_keys_concat m.nodup h⟩

/-- `HashMap::remove`: the value under `k`, if any, and the map without it. -/
def remove (m : HashMap α β) (k : α) : Option β × HashMap α β :=
  (m.get? k, ⟨m.entries.filter (·.1 ≠ k), m.nodup.sublist ((List.filter_sublist _).map _)⟩)

/-- The same map in the iteration order `l`, when `l` lists its entries. -/
def reorder? [DecidableEq β] (m : HashMap α β) (l : List (α × β)) : Option (HashMap α β) :=
  if h : l.Perm m.entries then some ⟨l, (h.map Prod.fst).nodup_iff.2 m.nodup⟩ else none

/-! ### Lookups -/

theorem get?_eq_some_iff {m : HashMap α β} {k : α} {v : β} :
    m.get? k = some v ↔ (k, v) ∈ m.entries := by
  simp only [get?, Option.map_eq_some']
  constructor
  · rintro ⟨e, he, rfl⟩
    have hk := List.find?_some he
    simp only [decide_eq_true_eq] at hk
    exact hk ▸ List.mem_of_find?_eq_some he
  · intro hmem
    obtain ⟨e, he⟩ : ∃ e, m.entries.find? (·.1 = k) = some e :=
      Option.ne_none_iff_exists'.1 (List.find?_eq_none.not.2 (by simpa using ⟨_, hmem⟩))
    have hk := List.find?_some he
    simp only [decide_eq_true_eq] at hk
    exact ⟨e, he, by rw [m.eq_of_mem_of_fst_eq (List.mem_of_find?_eq_some he) hmem hk]⟩

theorem get?_eq_none_iff {m : HashMap α β} {k : α} : m.get? k = none ↔ k ∉ m.keys := by
  simp only [get?, Option.map_eq_none', List.find?_eq_none, decide_eq_true_eq, mem_keys_iff,
    not_exists]
  exact ⟨fun h v hv => h _ hv rfl, fun h e he hek => h e.2 (hek ▸ he)⟩

theorem containsKey_iff {m : HashMap α β} {k : α} : m.containsKey k = true ↔ k ∈ m.keys := by
  simp [containsKey]

@[simp] theorem get?_empty (k : α) : (empty : HashMap α β).get? k = none := rfl

theorem mem_entries_insert {m : HashMap α β} {k k' : α} {v v' : β} :
    (k', v') ∈ (m.insert k v).entries ↔ (k' = k ∧ v' = v) ∨ (k' ≠ k ∧ (k', v') ∈ m.entries) := by
  unfold insert
  split
  · rename_i hk
    obtain ⟨w, hw⟩ := mem_keys_iff.1 hk
    simp only [setValue, List.mem_map]
    constructor
    · rintro ⟨e, he, hee⟩
      by_cases h : e.1 = k
      · simp only [h, if_true, Prod.mk.injEq] at hee
        exact .inl ⟨hee.1.symm, hee.2.symm⟩
      · simp only [h, if_false] at hee
        subst hee
        exact .inr ⟨h, he⟩
    · rintro (⟨rfl, rfl⟩ | ⟨hne, hmem⟩)
      · exact ⟨(k', w), hw, by simp⟩
      · exact ⟨(k', v'), hmem, by simp [hne]⟩
  · rename_i hk
    have hne : (k', v') ∈ m.entries → k' ≠ k := fun hmem h => hk (mem_keys_iff.2 ⟨v', h ▸ hmem⟩)
    simp only [List.mem_append, List.mem_singleton, Prod.mk.injEq]
    exact ⟨fun h => h.elim (fun hmem => .inr ⟨hne hmem, hmem⟩) .inl, fun h => h.elim .inr fun h => .inl h.2⟩

theorem get?_insert (m : HashMap α β) (k k' : α) (v : β) :
    (m.insert k v).get? k' = if k' = k then some v else m.get? k' := by
  split
  · subst k'
    exact get?_eq_some_iff.2 (mem_entries_insert.2 (.inl ⟨rfl, rfl⟩))
  · rename_i hne
    cases h : m.get? k' with
    | none =>
      rw [get?_eq_none_iff, mem_keys_iff]
      rintro ⟨w, hw⟩
      rcases mem_entries_insert.1 hw with ⟨h', -⟩ | ⟨-, hw⟩
      · exact hne h'
      · exact get?_eq_none_iff.1 h (mem_keys_iff.2 ⟨w, hw⟩)
    | some w => exact get?_eq_some_iff.2 (mem_entries_insert.2 (.inr ⟨hne, get?_eq_some_iff.1 h⟩))

theorem mem_keys_insert {m : HashMap α β} {k k' : α} {v : β} :
    k' ∈ (m.insert k v).keys ↔ k' = k ∨ k' ∈ m.keys := by
  by_cases h : k' = k
  · subst h
    simpa using mem_keys_iff.2 ⟨v, mem_entries_insert.2 (.inl ⟨rfl, rfl⟩)⟩
  · simp [mem_keys_iff, mem_entries_insert, h]

theorem containsKey_eq_of_perm {m m' : HashMap α β} (h : m'.entries.Perm m.entries) (k : α) :
    m'.containsKey k = m.containsKey k := by
  simp [containsKey, keys, (h.map Prod.fst).mem_iff]

theorem containsKey_eq_of_entries_append {m m' : HashMap α β} {l : List (α × β)} (h : m'.entries = m.entries ++ l)
    {k : α} (hk : k ∉ l.map Prod.fst) : m'.containsKey k = m.containsKey k := by
  simp [containsKey, keys, h, hk]

theorem containsKey_insert (m : HashMap α β) (k k' : α) (v : β) :
    (m.insert k v).containsKey k' = (decide (k' = k) || m.containsKey k') := by
  simp [containsKey, mem_keys_insert]

theorem mem_entries_remove {m : HashMap α β} {k k' : α} {v : β} :
    (k', v) ∈ (m.remove k).2.entries ↔ k' ≠ k ∧ (k', v) ∈ m.entries := by
  simp [remove, and_comm]

theorem reorder?_eq_some [DecidableEq β] {m m' : HashMap α β} {l : List (α × β)}
    (h : m.reorder? l = some m') : m'.entries = l ∧ l.Perm m.entries := by
  unfold reorder? at h
  split at h
  · cases h; exact ⟨rfl, by assumption⟩
  · cases h

theorem collect_reorder? [DecidableEq β] (g : β → List γ) {m m' : HashMap α β} {l : List (α × β)}
    (h : m.reorder? l = some m') : (m'.collect g).Perm (m.collect g) := by
  obtain ⟨h₁, h₂⟩ := reorder?_eq_some h
  unfold collect
  rw [h₁]
  exact h₂.flatMap_right _

theorem entries_remove (m : HashMap α β) (k : α) :
    (m.remove k).2.entries = m.entries.filter (·.1 ≠ k) := rfl

theorem entries_insert_of_not_mem {m : HashMap α β} {k : α} (h : k ∉ m.keys) (v : β) :
    (m.insert k v).entries = m.entries ++ [(k, v)] := by
  simp [insert, h]

theorem insert_perm {m m' : HashMap α β} (hm : m'.entries.Perm m.entries) (k : α) (v : β) :
    (m'.insert k v).entries.Perm (m.insert k v).entries := by
  have hk : k ∈ m'.keys ↔ k ∈ m.keys := (hm.map Prod.fst).mem_iff
  unfold insert
  by_cases h : k ∈ m.keys
  · rw [dif_pos h, dif_pos (hk.2 h)]
    exact hm.map _
  · rw [dif_neg h, dif_neg (mt hk.1 h)]
    exact hm.append_right _

/-- A loop over a map with a new key, which `insert` adds last, is the loop over the map and then one turn on
the new entry. -/
theorem iterMut_insert_of_not_mem (m : HashMap α β) {k : α} (hk : k ∉ m.keys) (v : β) (s : σ)
    (f : σ → α → β → σ × β) :
    (m.insert k v).iterMut s f =
      ((f (m.iterMut s f).1 k v).1, (m.iterMut s f).2.insert k (f (m.iterMut s f).1 k v).2) := by
  have hk' : k ∉ (m.iterMut s f).2.keys := by rwa [keys_iterMut]
  refine Prod.ext ?_ (HashMap.ext ?_)
  · simp only [iterMut, entries_insert_of_not_mem hk, iterMutList_append_singleton]
  · rw [entries_iterMut, entries_insert_of_not_mem hk, entries_insert_of_not_mem hk',
      iterMutList_append_singleton]
    rfl

theorem entries_foldl_remove : ∀ (ks : List α) (m : HashMap α β),
    (ks.foldl (fun m k => (m.remove k).2) m).entries = m.entries.filter (fun e => e.1 ∉ ks)
  | [], m => by simp
  | k :: ks, m => by
    rw [List.foldl_cons, entries_foldl_remove ks, entries_remove, List.filter_filter]
    congr 1
    funext e
    simp [Bool.and_comm]

theorem setValue_of_not_mem {k : α} {v : β} {l : List (α × β)} (h : k ∉ l.map Prod.fst) :
    setValue k v l = l :=
  calc l.map (fun e => if e.1 = k then (k, v) else e) = l.map id :=
        List.map_congr_left fun e he => if_neg fun (hk : e.1 = k) => h (hk ▸ List.mem_map_of_mem Prod.fst he)
    _ = l := List.map_id l

theorem flatMap_setValue_perm (g : β → List γ) (k : α) (v v₀ : β) :
    ∀ {l : List (α × β)}, (l.map Prod.fst).Nodup → (k, v₀) ∈ l →
      (((setValue k v l).flatMap fun e => g e.2) ++ g v₀).Perm ((l.flatMap fun e => g e.2) ++ g v)
  | e :: l, hl, hmem => by
    rw [List.map_cons, List.nodup_cons] at hl
    show ((((if e.1 = k then (k, v) else e) :: setValue k v l).flatMap fun e => g e.2) ++ g v₀).Perm _
    rcases List.mem_cons.1 hmem with rfl | hmem
    · rw [if_pos rfl, setValue_of_not_mem hl.1]
      simp only [List.flatMap_cons, List.append_assoc]
      exact (List.perm_append_comm_assoc _ _ _).trans
        ((List.perm_append_comm.append_left _).trans (List.perm_append_comm_assoc _ _ _).symm)
    · have hne : e.1 ≠ k := fun h => hl.1 (h ▸ List.mem_map_of_mem Prod.fst hmem)
      rw [if_neg hne]
      simp only [List.flatMap_cons, List.append_assoc]
      exact (flatMap_setValue_perm g k v v₀ hl.2 hmem).append_left _

theorem collect_insert_of_not_mem (g : β → List γ) {m : HashMap α β} {k : α} (h : k ∉ m.keys) (v : β) :
    (m.insert k v).collect g = m.collect g ++ g v := by
  simp [collect, entries_insert_of_not_mem h]

theorem collect_insert_perm (g : β → List γ) (m : HashMap α β) (k : α) (v : β) :
    ((m.insert k v).collect g ++ ((m.get? k).map g).getD []).Perm (m.collect g ++ g v) := by
  by_cases h : k ∈ m.keys
  · obtain ⟨v₀, hv₀⟩ := mem_keys_iff.1 h
    rw [get?_eq_some_iff.2 hv₀]
    simp only [collect, insert, h, dite_true, Option.map_some', Option.getD_some]
    exact flatMap_setValue_perm g k v v₀ m.nodup hv₀
  · rw [get?_eq_none_iff.2 h, collect_insert_of_not_mem g h]
    simp

theorem collect_insert_subperm (g : β → List γ) (m : HashMap α β) (k : α) (v : β) :
    ((m.insert k v).collect g).Subperm (m.collect g ++ g v) :=
  (List.sublist_append_left _ _).subperm.trans (collect_insert_perm g m k v).subperm

theorem flatMap_filter_ne_perm (g : β → List γ) {k : α} {v : β} :
    ∀ {l : List (α × β)}, (l.map Prod.fst).Nodup → (k, v) ∈ l →
      (((l.filter (·.1 ≠ k)).flatMap fun e => g e.2) ++ g v).Perm (l.flatMap fun e => g e.2)
  | e :: l, hl, hmem => by
    rw [List.map_cons, List.nodup_cons] at hl
    rcases List.mem_cons.1 hmem with rfl | hmem
    · have hl' : l.filter (·.1 ≠ k) = l :=
        List.filter_eq_self.2 fun e' he' =>
          decide_eq_true fun (h : e'.1 = k) =>
            hl.1 (h ▸ (List.mem_map_of_mem Prod.fst he' : e'.1 ∈ l.map Prod.fst))
      simp only [List.filter_cons, ne_eq, not_true_eq_false, decide_False, Bool.false_eq_true, if_false,
        hl', List.flatMap_cons]
      exact List.perm_append_comm
    · have hne : e.1 ≠ k := fun (h : e.1 = k) =>
        hl.1 (h ▸ (List.mem_map_of_mem Prod.fst hmem : k ∈ l.map Prod.fst))
      simp only [List.filter_cons, hne, ne_eq, not_false_eq_true, decide_True, if_true, List.flatMap_cons,
        List.append_assoc]
      exact (flatMap_filter_ne_perm g hl.2 hmem).append_left _

theorem collect_remove_perm (g : β → List γ) {m : HashMap α β} {k : α} {v : β} (h : (k, v) ∈ m.entries) :
    ((m.remove k).2.collect g ++ g v).Perm (m.collect g) :=
  flatMap_filter_ne_perm g m.nodup h

theorem collect_remove_perm' (g : β → List γ) (m : HashMap α β) (k : α) :
    ((m.remove k).2.collect g ++ ((m.get? k).map g).getD []).Perm (m.collect g) := by
  cases h : m.get? k with
  | none =>
    have hf : m.entries.filter (·.1 ≠ k) = m.entries := List.filter_eq_self.2 fun e he =>
      decide_eq_true fun hek => get?_eq_none_iff.1 h (mem_keys_iff.2 ⟨e.2, hek ▸ he⟩)
    simp only [collect, entries_remove, hf, Option.map_none', Option.getD_none, List.append_nil]
    exact .refl _
  | some v => exact collect_remove_perm g (get?_eq_some_iff.1 h)

theorem collect_remove_sublist (g : β → List γ) (m : HashMap α β) (k : α) :
    ((m.remove k).2.collect g).Sublist (m.collect g) :=
  flatMap_sublist_of_sublist g (List.filter_sublist _)

end HashMap

end GrinPool
