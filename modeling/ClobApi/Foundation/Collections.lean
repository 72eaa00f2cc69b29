import Mathlib.Data.List.AList
import Mathlib.Data.List.Sort
import Std.Data.ExtTreeMap.Lemmas

/-!
# Finite maps and maps of queues

`HashMap` is a finite map whose iteration order carries no meaning: the
association list below it lists the bindings in some order, and every
statement about iteration is about that list up to permutation.  A sorted map
is `Std.ExtTreeMap`.  The last section is about sorted maps whose values are
first-in first-out queues and which never keep an empty queue.
-/

namespace ClobApi.Foundation

/--
An order in which a container without an order of its own yields its elements.
-/
structure Shuffle (α : Type) where
  apply : List α → List α
  perm : ∀ l, (apply l).Perm l

def Shuffle.id {α : Type} : Shuffle α := ⟨fun l => l, fun _ => .refl _⟩

structure HashMap (κ ν : Type) where
  alist : AList fun _ : κ => ν

namespace HashMap

variable {κ ν μ : Type}

def empty : HashMap κ ν := ⟨∅⟩

def values (m : HashMap κ ν) : List ν := m.alist.entries.map (·.2)

def bindings (m : HashMap κ ν) : List (κ × ν) :=
  m.alist.entries.map fun binding => (binding.1, binding.2)

theorem keys_nodup (m : HashMap κ ν) : (m.bindings.map Prod.fst).Nodup := by
  have h : m.bindings.map Prod.fst = m.alist.keys := by
    simp [bindings, AList.keys, List.keys]
  rw [h]
  exact m.alist.keys_nodup

theorem bindings_nodup (m : HashMap κ ν) : m.bindings.Nodup :=
  m.keys_nodup.of_map

def mapValues (m : HashMap κ ν) (f : ν → μ) : HashMap κ μ :=
  ⟨m.alist.entries.map fun binding => ⟨binding.1, f binding.2⟩, by
    have h := m.alist.nodupKeys
    rw [List.NodupKeys, List.keys] at h ⊢
    rw [List.map_map]
    exact h⟩

variable [DecidableEq κ]

def get? (m : HashMap κ ν) (k : κ) : Option ν := m.alist.lookup k

def insert (m : HashMap κ ν) (k : κ) (v : ν) : HashMap κ ν :=
  ⟨m.alist.insert k v⟩

def modify (m : HashMap κ ν) (k : κ) (f : ν → ν) : HashMap κ ν :=
  match m.get? k with
  | none => m
  | some v => m.insert k (f v)

@[simp] theorem get?_empty (k : κ) : (empty : HashMap κ ν).get? k = none := rfl

theorem get?_insert (m : HashMap κ ν) (k k' : κ) (v : ν) :
    (m.insert k v).get? k' = if k' = k then some v else m.get? k' := by
  split
  · next h =>
      subst h
      exact AList.lookup_insert m.alist
  · next h => exact AList.lookup_insert_ne h

@[simp] theorem get?_insert_self (m : HashMap κ ν) (k : κ) (v : ν) :
    (m.insert k v).get? k = some v := by
  simp [get?_insert]

theorem forall_get?_insert {P : ν → Prop} {m : HashMap κ ν} {k : κ} {v : ν}
    (hv : P v) (h : ∀ {k' v'}, m.get? k' = some v' → P v') {k' : κ} {v' : ν}
    (hget : (m.insert k v).get? k' = some v') : P v' := by
  rw [get?_insert] at hget
  split at hget
  · exact Option.some.inj hget ▸ hv
  · exact h hget

@[simp] theorem insert_insert (m : HashMap κ ν) (k : κ) (v v' : ν) :
    (m.insert k v).insert k v' = m.insert k v' :=
  congrArg HashMap.mk (AList.insert_insert m.alist)

theorem get?_modify (m : HashMap κ ν) (k k' : κ) (f : ν → ν) :
    (m.modify k f).get? k' =
      if k' = k then (m.get? k').map f else m.get? k' := by
  unfold modify
  cases h : m.get? k with
  | none =>
      by_cases hk : k' = k
      · subst hk
        simp [h]
      · simp [hk]
  | some v =>
      simp only [get?_insert]
      by_cases hk : k' = k
      · subst hk
        simp [h]
      · simp [hk]

theorem mem_bindings (m : HashMap κ ν) (k : κ) (v : ν) :
    (k, v) ∈ m.bindings ↔ m.get? k = some v := by
  have hlookup : m.get? k = some v ↔
      (⟨k, v⟩ : Sigma fun _ : κ => ν) ∈ m.alist.entries :=
    AList.mem_lookup_iff
  rw [hlookup]
  simp only [bindings, List.mem_map, Prod.mk.injEq]
  constructor
  · rintro ⟨⟨k', v'⟩, hmem, rfl, rfl⟩
    exact hmem
  · intro hmem
    exact ⟨⟨k, v⟩, hmem, rfl, rfl⟩

theorem mem_values (m : HashMap κ ν) (v : ν) :
    v ∈ m.values ↔ ∃ k, m.get? k = some v := by
  have hvalues : m.values = m.bindings.map Prod.snd := by
    simp [values, bindings]
  rw [hvalues]
  simp only [List.mem_map, Prod.exists, exists_eq_right, mem_bindings]

theorem bindings_perm {m m' : HashMap κ ν} (h : ∀ k, m.get? k = m'.get? k) :
    m.bindings.Perm m'.bindings := by
  refine (List.perm_ext_iff_of_nodup m.bindings_nodup m'.bindings_nodup).mpr ?_
  rintro ⟨k, v⟩
  rw [mem_bindings, mem_bindings, h]

@[simp] theorem get?_mapValues (m : HashMap κ ν) (f : ν → μ) (k : κ) :
    (m.mapValues f).get? k = (m.get? k).map f := by
  obtain ⟨⟨entries, hnodup⟩⟩ := m
  simp only [get?, AList.lookup, mapValues]
  clear hnodup
  induction entries with
  | nil => rfl
  | cons binding entries ih =>
      obtain ⟨k', v⟩ := binding
      rw [List.map_cons]
      by_cases hk : k = k'
      · subst hk
        rw [List.dlookup_cons_eq, List.dlookup_cons_eq]
        rfl
      · rw [List.dlookup_cons_ne _ _ hk, ih, List.dlookup_cons_ne _ _ hk]

theorem mapValues_insert (m : HashMap κ ν) (f : ν → μ) (k : κ) (v : ν) :
    (m.insert k v).mapValues f = (m.mapValues f).insert k (f v) := by
  refine congrArg HashMap.mk (AList.ext ?_)
  simp only [insert, mapValues, AList.entries_insert, List.map_cons,
    List.kerase, List.eraseP_map]
  rfl

theorem mapValues_modify (m : HashMap κ ν) {f : ν → μ} {g : ν → ν} {g' : μ → μ}
    (hcomm : ∀ v, f (g v) = g' (f v)) (k : κ) :
    (m.modify k g).mapValues f = (m.mapValues f).modify k g' := by
  unfold modify
  rw [get?_mapValues]
  cases m.get? k with
  | none => rfl
  | some v => simp [mapValues_insert, hcomm]

end HashMap

/-! ## Strictly sorted lists -/

section StrictlySorted

variable {α : Type}

theorem eq_of_pairwise_lt_of_mem_iff {l l' : List α} (key : α → Nat)
    (hl : l.Pairwise fun a b => key a < key b)
    (hl' : l'.Pairwise fun a b => key a < key b)
    (hmem : ∀ a, a ∈ l ↔ a ∈ l') : l = l' := by
  have hnodup : ∀ {xs : List α},
      xs.Pairwise (fun a b => key a < key b) → xs.Nodup :=
    fun h => h.imp fun hlt heq => by subst heq; omega
  refine List.Perm.eq_of_pairwise ?_ hl hl'
    ((List.perm_ext_iff_of_nodup (hnodup hl) (hnodup hl')).mpr hmem)
  intro a b _ _ hab hba
  omega

theorem pairwise_lt_insertionSort (key : α → Nat) (l : List α)
    (hdistinct : l.Pairwise fun a b => key a ≠ key b) :
    (l.insertionSort fun a b => key a ≤ key b).Pairwise fun a b =>
      key a < key b := by
  have hle : (l.insertionSort fun a b => key a ≤ key b).Pairwise
      fun a b => key a ≤ key b := by
    have : Std.Total fun a b : α => key a ≤ key b :=
      ⟨fun a b => Nat.le_total _ _⟩
    have : IsTrans α fun a b : α => key a ≤ key b := ⟨fun _ _ _ => Nat.le_trans⟩
    exact List.pairwise_insertionSort _ l
  have hne : (l.insertionSort fun a b => key a ≤ key b).Pairwise
      fun a b => key a ≠ key b :=
    ((List.perm_insertionSort _ l).pairwise_iff fun h => h.symm).mpr hdistinct
  exact (hle.and hne).imp fun h => Nat.lt_of_le_of_ne h.1 h.2

theorem mem_takeWhile_iff {r : α → α → Prop} {p : α → Bool} {l : List α}
    (hl : l.Pairwise r) (hp : ∀ a b, r a b → p b = true → p a = true) (a : α) :
    a ∈ l.takeWhile p ↔ a ∈ l ∧ p a = true := by
  induction l with
  | nil => simp
  | cons b l ih =>
      rw [List.pairwise_cons] at hl
      by_cases hb : p b = true
      · rw [List.takeWhile_cons_of_pos hb, List.mem_cons,
          List.mem_cons, ih hl.2]
        grind
      · rw [List.takeWhile_cons_of_neg hb]
        have := hp b a
        grind

/-- The `depth` best members of a set, best first and each once. -/
structure BestFirst (better : α → α → Prop) (member : α → Prop) (depth : Nat)
    (l : List α) : Prop where
  sorted : l.Pairwise better
  members : ∀ a ∈ l, member a
  length_le : l.length ≤ depth
  best : ∀ a, member a → a ∉ l → l.length = depth ∧ ∀ b ∈ l, better b a

theorem bestFirst_take {better : α → α → Prop} {member : α → Prop}
    {l : List α} (hl : l.Pairwise better) (hmember : ∀ a, member a → a ∈ l)
    {depth : Nat} (hbest : ∀ a ∈ l.take depth, member a) :
    BestFirst better member depth (l.take depth) where
  sorted := hl.sublist (List.take_sublist depth l)
  members := hbest
  length_le := List.length_take_le depth l
  best := by
    intro a ha hnot
    have hsplit := List.take_append_drop depth l
    have hdrop : a ∈ l.drop depth := by
      have hmem := hmember a ha
      rw [← hsplit] at hmem
      exact (List.mem_append.mp hmem).resolve_left hnot
    have hlong : depth < l.length := by
      have := List.length_pos_of_mem hdrop
      rw [List.length_drop] at this
      omega
    rw [← hsplit, List.pairwise_append] at hl
    exact ⟨List.length_take_of_le (Nat.le_of_lt hlong),
      fun b hb => hl.2.2 b hb a hdrop⟩

end StrictlySorted

theorem HashMap.sort_bindings_congr {κ ν : Type} [DecidableEq κ]
    (le : κ → κ → Prop) [DecidableRel le] (htotal : ∀ a b, le a b ∨ le b a)
    (htrans : ∀ a b c, le a b → le b c → le a c)
    (hantisymm : ∀ a b, le a b → le b a → a = b) {m m' : HashMap κ ν}
    (h : ∀ k, m.get? k = m'.get? k) :
    m.bindings.insertionSort (fun a b => le a.1 b.1) =
      m'.bindings.insertionSort fun a b => le a.1 b.1 := by
  have : Std.Total fun a b : κ × ν => le a.1 b.1 := ⟨fun a b => htotal a.1 b.1⟩
  have : IsTrans (κ × ν) fun a b => le a.1 b.1 :=
    ⟨fun a b c => htrans a.1 b.1 c.1⟩
  have hperm := List.perm_insertionSort (fun a b : κ × ν => le a.1 b.1)
  refine List.Perm.eq_of_pairwise ?_ (List.pairwise_insertionSort _ _)
    (List.pairwise_insertionSort _ _)
      (((hperm _).trans (bindings_perm h)).trans (hperm _).symm)
  rintro ⟨k, v⟩ ⟨k', v'⟩ hmem hmem' hle hle'
  rw [(hperm _).mem_iff, mem_bindings] at hmem hmem'
  obtain rfl : k = k' := hantisymm k k' hle hle'
  rw [h, hmem', Option.some.injEq] at hmem
  rw [hmem]

theorem HashMap.get?_of_sort_bindings {κ ν : Type} [DecidableEq κ]
    {le : κ × ν → κ × ν → Prop} [DecidableRel le] {m m' : HashMap κ ν}
    (h : m.bindings.insertionSort le = m'.bindings.insertionSort le) (k : κ) :
    m.get? k = m'.get? k := by
  ext v
  rw [← mem_bindings, ← mem_bindings,
    ← (List.perm_insertionSort le m.bindings).mem_iff, h,
    (List.perm_insertionSort le m'.bindings).mem_iff]

/-! ## Sorted maps of queues -/

namespace QueueMap

variable {κ α : Type} [Ord κ] [Std.TransOrd κ]

def queue (m : Std.ExtTreeMap κ (List α)) (k : κ) : List α := m[k]?.getD []

/-- `entry(k).or_default().push_back(a)` -/
def pushBack (m : Std.ExtTreeMap κ (List α)) (k : κ) (a : α) :
    Std.ExtTreeMap κ (List α) :=
  m.alter k fun q => some (q.getD [] ++ [a])

def nonempty? (q : List α) : Option (List α) :=
  if q.isEmpty then none else some q

/--
`retain` everything but `a` in the queue at `k`; an emptied queue is removed.
-/
def remove [DecidableEq α] (m : Std.ExtTreeMap κ (List α)) (k : κ) (a : α) :
    Std.ExtTreeMap κ (List α) :=
  m.alter k fun q => q.bind fun q => nonempty? (q.filter fun b => b ≠ a)

def NoEmpty (m : Std.ExtTreeMap κ (List α)) : Prop := ∀ k : κ, m[k]? ≠ some []

@[simp] theorem nonempty?_getD (q : List α) : (nonempty? q).getD [] = q := by
  cases q <;> rfl

theorem nonempty?_ne (q : List α) : nonempty? q ≠ some [] := by
  cases q <;> simp [nonempty?]

@[simp] theorem queue_empty (k : κ) :
    queue (∅ : Std.ExtTreeMap κ (List α)) k = [] := by
  simp [queue]

theorem noEmpty_empty : NoEmpty (∅ : Std.ExtTreeMap κ (List α)) := by
  simp [NoEmpty]

theorem noEmpty_pushBack {m : Std.ExtTreeMap κ (List α)} (hm : NoEmpty m)
    (k : κ) (a : α) : NoEmpty (pushBack m k a) := by
  intro k'
  unfold pushBack
  rw [Std.ExtTreeMap.getElem?_alter]
  split
  · simp
  · exact hm k'

theorem noEmpty_remove [DecidableEq α] {m : Std.ExtTreeMap κ (List α)}
    (hm : NoEmpty m) (k : κ) (a : α) : NoEmpty (remove m k a) := by
  intro k'
  unfold remove
  rw [Std.ExtTreeMap.getElem?_alter]
  split
  · cases m[k]? with
    | none => simp
    | some q => exact nonempty?_ne _
  · exact hm k'

variable [Std.LawfulEqOrd κ]

theorem queue_pushBack [DecidableEq κ] (m : Std.ExtTreeMap κ (List α))
    (k k' : κ) (a : α) :
    queue (pushBack m k a) k' =
      if k' = k then queue m k ++ [a] else queue m k' := by
  unfold queue pushBack
  rw [Std.ExtTreeMap.getElem?_alter]
  by_cases h : k' = k
  · subst h
    simp
  · have hk : compare k k' ≠ .eq :=
      fun hc => h (Std.LawfulEqCmp.eq_of_compare hc).symm
    simp [hk, h]

theorem queue_remove [DecidableEq α] [DecidableEq κ]
    (m : Std.ExtTreeMap κ (List α)) (k k' : κ) (a : α) :
    queue (remove m k a) k' =
      if k' = k then (queue m k).filter (fun b => b ≠ a) else queue m k' := by
  unfold queue remove
  rw [Std.ExtTreeMap.getElem?_alter]
  by_cases h : k' = k
  · subst h
    cases m[k']? <;> simp
  · have hk : compare k k' ≠ .eq :=
      fun hc => h (Std.LawfulEqCmp.eq_of_compare hc).symm
    simp [hk, h]

theorem mem_keys_iff_queue_ne_nil {m : Std.ExtTreeMap κ (List α)}
    (hm : NoEmpty m) (k : κ) : k ∈ m.keys ↔ queue m k ≠ [] := by
  rw [Std.ExtTreeMap.mem_keys, ← Std.ExtTreeMap.isSome_getElem?_iff_mem]
  have hk := hm k
  unfold queue
  cases h : m[k]? with
  | none => simp
  | some q =>
      rw [h] at hk
      simpa using hk

theorem toList_eq_map_keys (m : Std.ExtTreeMap κ (List α)) :
    m.toList = m.keys.map fun k => (k, queue m k) := by
  have hrow : ∀ row ∈ m.toList, row = (row.1, queue m row.1) := by
    rintro ⟨k, q⟩ hrow
    rw [Std.ExtTreeMap.mem_toList_iff_getElem?_eq_some] at hrow
    simp [queue, hrow]
  rw [← Std.ExtTreeMap.map_fst_toList_eq_keys, List.map_map]
  exact (List.map_id' _).symm.trans (List.map_congr_left hrow)

theorem ext_queue {m m' : Std.ExtTreeMap κ (List α)} (hm : NoEmpty m)
    (hm' : NoEmpty m') (h : ∀ k, queue m k = queue m' k) : m = m' := by
  refine Std.ExtTreeMap.ext_getElem? fun k => ?_
  have hk := h k
  have h₁ := hm k
  have h₂ := hm' k
  unfold queue at hk
  cases hq : m[k]? <;> cases hq' : m'[k]? <;> simp_all

end QueueMap

end ClobApi.Foundation
