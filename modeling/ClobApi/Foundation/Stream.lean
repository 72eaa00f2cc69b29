import ClobApi.Foundation.Shipping

/-!
# Shipping to a stream

The sink is the list of the items put so far.  It is the rendering of the log
when the workers copy and put in the order of the log and give up nothing; a
step out of order spoils the stream for good.
-/

namespace ClobApi.Foundation

variable {ι α β : Type}

def Rendering.stream (r : Rendering α β) : Route α β (List β) where
  toRendering := r
  put := fun sink chunk => sink ++ chunk
  Holds := fun sink n => ∃ item ∈ sink, r.number item = n
  holds_put := by simp [or_and_right, exists_or]

section Conditions

variable (r : Rendering α β)

/-- The stream, or the copy that a worker has still to put there. -/
def Shipping.place (t : Shipping ι α β (List β)) : Option ι → List β
  | none => t.sink
  | some i => (t.debts i).items

def Copied (t : Shipping ι α β (List β)) (item : β) : Prop :=
  ∃ p, item ∈ t.place p

def Collected (t : Shipping ι α β (List β)) (n : Nat) : Prop :=
  ∃ item, Copied t item ∧ r.number item = n

/--
The worker copies only entries that nobody copied, and only when everything
before them is copied; it puts nothing before the earlier copies of others; it
gives up only what another worker owes too.
-/
structure InOrder (base : Nat) (i : ι) (act : Act β)
    (t t' : Shipping ι α β (List β)) : Prop where
  copy : act = .copy → ∀ seen, t.debts i = .tail seen → seen < t.log.length →
    (∀ n, base < n → n ≤ seen → Collected r t n) ∧
      ∀ n, seen < n → n ≤ t.log.length → ¬ Collected r t n
  put : ∀ chunk, act = .put chunk → ∀ item ∈ chunk, ∀ j, j ≠ i →
    ∀ other ∈ (t.debts j).items, r.number item ≤ r.number other
  giveUp : act.GivesUp → Covered r.stream base i t t'.log.length

end Conditions

variable {r : Rendering α β}

/-! ## In order -/

section InOrder

/-- The copies of the workers in the order in which they continue the stream. -/
structure Queue (r : Rendering α β) (base k : Nat) (queue : List ι)
    (t : Shipping ι α β (List β)) : Prop where
  base_le : base ≤ k
  le_length : k ≤ t.log.length
  nodup : queue.Nodup
  mem_iff : ∀ j, j ∈ queue ↔ (t.debts j).items ≠ []
  items : t.sink ++ queue.flatMap (fun j => (t.debts j).items) =
    r.renderAll ((t.log.take k).drop base)
  ascending : queue.Pairwise fun i j =>
    ∀ x ∈ (t.debts i).items, ∀ y ∈ (t.debts j).items, r.number x < r.number y

structure Streaming (r : Rendering α β) (base : Nat)
    (t : Shipping ι α β (List β)) : Prop where
  behind : ∀ i seen, t.debts i = .tail seen → base ≤ seen
  queued : ∃ k queue, Queue r base k queue t

theorem Queue.collected_iff {base k : Nat} {queue : List ι}
    {t : Shipping ι α β (List β)} (h : Queue r base k queue t)
    (hlog : r.Numbered t.log) (n : Nat) :
    Collected r t n ↔ base < n ∧ n ≤ k := by
  have hcopied : ∀ item, Copied t item ↔
      item ∈ r.renderAll ((t.log.take k).drop base) := by
    intro item
    rw [← h.items, List.mem_append, List.mem_flatMap, Copied, Option.exists]
    refine or_congr_right ⟨?_, fun ⟨j, _, hitem⟩ => ⟨j, hitem⟩⟩
    rintro ⟨j, hitem⟩
    exact ⟨j, (h.mem_iff j).mpr (List.ne_nil_of_mem hitem), hitem⟩
  have hnumbers := (hlog.take k).mem_renderTail base n
  rw [List.length_take_of_le h.le_length] at hnumbers
  simp only [Collected, hcopied, hnumbers]

theorem Queue.first {base k : Nat} {queue : List ι}
    {t : Shipping ι α β (List β)} (h : Queue r base k queue t) {i : ι}
    {item : β} (hitem : item ∈ (t.debts i).items)
    (horder : ∀ j, j ≠ i → ∀ other ∈ (t.debts j).items,
      r.number item ≤ r.number other) : ∃ after, queue = i :: after := by
  have hi : i ∈ queue := (h.mem_iff i).mpr (List.ne_nil_of_mem hitem)
  obtain ⟨before, after, rfl⟩ := List.append_of_mem hi
  -- a worker before `i` would have an earlier copy
  have hbefore : before = [] := by
    refine List.eq_nil_iff_forall_not_mem.mpr fun a ha => ?_
    obtain ⟨other, hother⟩ :=
      List.exists_mem_of_ne_nil _ ((h.mem_iff a).mp (by simp [ha]))
    have hai : a ≠ i := (List.nodup_append.mp h.nodup).2.2 a ha i (by simp)
    have hlt := (List.pairwise_append.mp h.ascending).2.2 a ha i (by simp) other
      hother item hitem
    exact absurd (horder a hai other hother) (Nat.not_le.mpr hlt)
  exact ⟨after, by rw [hbefore, List.nil_append]⟩

variable [DecidableEq ι] {base : Nat} {i : ι} {act : Act β}
  {t t' : Shipping ι α β (List β)}

theorem flatMap_update {queue : List ι} (hi : i ∉ queue) (debts : ι → Debt β)
    (debt : Debt β) :
    queue.flatMap (fun j => (Function.update debts i debt j).items) =
      queue.flatMap fun j => (debts j).items := by
  refine List.flatMap_congr fun j hj => ?_
  rw [Function.update_of_ne (ne_of_mem_of_not_mem hj hi)]

theorem Queue.update_empty {k : Nat} {queue : List ι}
    (h : Queue r base k queue t) (hold : (t.debts i).items = []) {debt : Debt β}
    (hnew : debt.items = []) (new : List α) :
    Queue r base k queue
      { t with
        log := t.log ++ new
        debts := Function.update t.debts i debt } := by
  have hitems : ∀ j,
      (Function.update t.debts i debt j).items = (t.debts j).items := by
    intro j
    by_cases hj : j = i
    · subst hj
      rw [Function.update_self, hold, hnew]
    · rw [Function.update_of_ne hj]
  exact {
    base_le := h.base_le
    le_length := h.le_length.trans (by simp)
    nodup := h.nodup
    mem_iff := by simpa only [hitems] using h.mem_iff
    items := by
      simpa only [hitems, List.take_append_of_le_length h.le_length] using
        h.items
    ascending := by simpa only [hitems] using h.ascending }

theorem Queue.copy {k seen : Nat} {queue : List ι} (h : Queue r base k queue t)
    (hlog : r.Numbered t.log) (hdebt : t.debts i = .tail seen) (hk : seen = k)
    (hlt : seen < t.log.length) :
    Queue r base t.log.length (queue ++ [i])
      { t with
        debts := Function.update t.debts i
          (.batch (r.renderAll (t.log.drop seen))) } := by
  subst hk
  have hi : i ∉ queue := by
    rw [h.mem_iff, hdebt]
    simp [Debt.items]
  have hne : r.renderAll (t.log.drop seen) ≠ [] := by
    obtain ⟨item, hitem, -⟩ :=
      (hlog.mem_renderTail seen (seen + 1)).mpr ⟨by omega, by omega⟩
    exact List.ne_nil_of_mem hitem
  have hother : ∀ j ∈ queue,
      Function.update t.debts i (.batch (r.renderAll (t.log.drop seen))) j =
        t.debts j :=
    fun j hj => Function.update_of_ne (ne_of_mem_of_not_mem hj hi) _ _
  refine {
    base_le := h.base_le.trans h.le_length
    le_length := Nat.le_refl _
    nodup := ?_
    mem_iff := fun j => ?_
    items := ?_
    ascending := ?_ }
  · rw [List.nodup_append]
    refine ⟨h.nodup, List.nodup_singleton i, fun a ha b hb => ?_⟩
    rw [List.mem_singleton.mp hb]
    exact ne_of_mem_of_not_mem ha hi
  · by_cases hj : j = i
    · subst hj
      simp [Debt.items, hne]
    · simp [hj, h.mem_iff j]
  · rw [List.flatMap_append, flatMap_update hi, ← List.append_assoc, h.items,
      List.take_length]
    simp only [List.flatMap_singleton, Function.update_self, Debt.items]
    exact Rendering.renderAll_window h.base_le h.le_length
  · refine List.pairwise_append.mpr ⟨?_, List.pairwise_singleton _ i, ?_⟩
    · refine h.ascending.imp_of_mem fun ha hb hab => ?_
      simpa only [hother _ ha, hother _ hb] using hab
    · intro a ha b hb x hx y hy
      obtain rfl := List.mem_singleton.mp hb
      simp only [hother a ha] at hx
      simp only [Function.update_self] at hy
      have hold := ((h.collected_iff hlog _).mp ⟨x, ⟨some a, hx⟩, rfl⟩).2
      have hnew := ((hlog.mem_renderTail seen _).mp ⟨y, hy, rfl⟩).1
      omega

theorem Queue.put {k : Nat} {queue : List ι} (h : Queue r base k queue t)
    {chunk rest : List β} (hdebt : t.debts i = .batch (chunk ++ rest))
    (hne : chunk ≠ [])
    (horder : ∀ item ∈ chunk, ∀ j, j ≠ i → ∀ other ∈ (t.debts j).items,
      r.number item ≤ r.number other) :
    ∃ queue', Queue r base k queue'
      { t with
        debts := Function.update t.debts i (.batch rest)
        sink := t.sink ++ chunk } := by
  have hitems : (t.debts i).items = chunk ++ rest := by rw [hdebt]; rfl
  obtain ⟨item, hitem⟩ := List.exists_mem_of_ne_nil _ hne
  obtain ⟨after, rfl⟩ :=
    h.first (by rw [hitems]; simp [hitem]) (horder item hitem)
  have hafter : i ∉ after := (List.nodup_cons.mp h.nodup).1
  have hother : ∀ j ∈ after,
      Function.update t.debts i (.batch rest) j = t.debts j :=
    fun j hj => Function.update_of_ne (ne_of_mem_of_not_mem hj hafter) _ _
  have hsink :
      (t.sink ++ chunk) ++ (rest ++ after.flatMap fun j => (t.debts j).items) =
        r.renderAll ((t.log.take k).drop base) := by
    rw [← h.items, List.flatMap_cons, hitems]
    simp only [List.append_assoc]
  obtain ⟨hfirst, hrests⟩ := List.pairwise_cons.mp h.ascending
  have hascending : after.Pairwise fun a b =>
      ∀ x ∈ (Function.update t.debts i (.batch rest) a).items,
        ∀ y ∈ (Function.update t.debts i (.batch rest) b).items,
          r.number x < r.number y := by
    refine hrests.imp_of_mem fun ha hb hab => ?_
    simpa only [hother _ ha, hother _ hb] using hab
  by_cases hrest : rest = []
  · subst hrest
    refine ⟨after, h.base_le, h.le_length, (List.nodup_cons.mp h.nodup).2,
      fun j => ?_, ?_, hascending⟩
    · by_cases hj : j = i
      · subst hj
        simp [Debt.items, hafter]
      · simp [hj, ← h.mem_iff j]
    · simpa only [flatMap_update hafter, List.nil_append] using hsink
  · refine ⟨i :: after, h.base_le, h.le_length, h.nodup, fun j => ?_, ?_,
      List.pairwise_cons.mpr ⟨fun b hb x hx y hy => ?_, hascending⟩⟩
    · by_cases hj : j = i
      · subst hj
        simp [Debt.items, hrest]
      · simp [hj, ← h.mem_iff j]
    · simp only [List.flatMap_cons, flatMap_update hafter, Function.update_self]
      exact hsink
    · simp only [Function.update_self, Debt.items] at hx
      simp only [hother b hb] at hy
      exact hfirst b hb x (by simp [hitems, hx]) y hy

theorem Ship.streaming (h : Ship r.stream i act t t') (hlog : r.Numbered t.log)
    (hact : act ≠ .fail) (horder : InOrder r base i act t t')
    (hstream : Streaming r base t) : Streaming r base t' := by
  obtain ⟨hbehind, k, queue, hqueue⟩ := hstream
  have hupdate : ∀ debt : Debt β,
      (∀ seen, debt = .tail seen → base ≤ seen) → ∀ j seen,
      Function.update t.debts i debt j = .tail seen → base ≤ seen := by
    intro debt hdebt j seen hj
    by_cases hji : j = i
    · subst hji
      rw [Function.update_self] at hj
      exact hdebt seen hj
    · rw [Function.update_of_ne hji] at hj
      exact hbehind j seen hj
  cases h with
  | rest => exact ⟨hbehind, k, queue, hqueue⟩
  | append new clear =>
      refine ⟨hupdate _ fun seen hseen => ?_, k, queue,
        hqueue.update_empty (by rw [clear]; rfl) rfl new⟩
      cases hseen
      exact hqueue.base_le.trans hqueue.le_length
  | @copy t seen behind =>
      refine ⟨hupdate _ nofun, ?_⟩
      rcases Nat.lt_or_ge seen t.log.length with hlt | hge
      · obtain ⟨hdone, hnew⟩ := horder.copy rfl seen behind hlt
        have hcollected := hqueue.collected_iff hlog
        have hk : seen = k := by
          have hbase := hbehind i seen behind
          have hle := hqueue.le_length
          rcases Nat.lt_trichotomy seen k with hsk | hsk | hsk
          · exact absurd ((hcollected (seen + 1)).mpr (by omega))
              (hnew _ (by omega) (by omega))
          · exact hsk
          · have hmissing := (hcollected (k + 1)).mp
              (hdone _ (by have := hqueue.base_le; omega) (by omega))
            omega
        exact ⟨_, _, hqueue.copy hlog behind hk hlt⟩
      · have hnothing : r.renderAll (t.log.drop seen) = [] := by
          rw [List.drop_eq_nil_of_le hge]
          rfl
        have hsame := hqueue.update_empty (by rw [behind]; rfl)
          (show (Debt.batch (r.renderAll (t.log.drop seen))).items = []
            from hnothing) []
        rw [List.append_nil] at hsame
        exact ⟨k, queue, hsame⟩
  | @put t chunk rest copied =>
      refine ⟨hupdate _ nofun, ?_⟩
      by_cases hne : chunk = []
      · subst hne
        rw [List.nil_append] at copied
        have hput : r.stream.put t.sink [] = t.sink := List.append_nil _
        rw [Function.update_eq_self_iff.mpr copied.symm, hput]
        exact ⟨k, queue, hqueue⟩
      · exact ⟨k, hqueue.put copied hne (horder.put _ rfl)⟩
  | leave new empty =>
      exact ⟨hupdate _ nofun, k, queue, hqueue.update_empty empty rfl new⟩
  | fail => exact absurd rfl hact

end InOrder

theorem Streaming.isPrefix {base : Nat} {t : Shipping ι α β (List β)}
    (h : Streaming r base t) : t.sink <+: r.renderAll (t.log.drop base) := by
  obtain ⟨k, queue, hqueue⟩ := h.queued
  rw [← Rendering.renderAll_window hqueue.base_le hqueue.le_length,
    ← hqueue.items, List.append_assoc]
  exact List.prefix_append _ _

theorem Streaming.complete {base : Nat} {t : Shipping ι α β (List β)}
    (h : Streaming r base t) (hlog : r.Numbered t.log)
    (haccounted : AccountedFor r.stream base t)
    (hclear : ∀ i, t.debts i = .batch []) :
    t.sink = r.renderAll (t.log.drop base) := by
  obtain ⟨k, queue, hqueue⟩ := h.queued
  have hempty : queue = [] := by
    refine List.eq_nil_iff_forall_not_mem.mpr fun j hj =>
      (hqueue.mem_iff j).mp hj ?_
    rw [hclear j]
    rfl
  have hk : k = t.log.length := by
    by_contra hne
    have hlt := Nat.lt_of_le_of_ne hqueue.le_length hne
    obtain ⟨item, hitem, hnumber⟩ := haccounted.holds hclear
      (Nat.lt_succ_of_le hqueue.base_le) hlt
    have hle :=
      ((hqueue.collected_iff hlog _).mp ⟨item, ⟨none, hitem⟩, hnumber⟩).2
    omega
  have hitems := hqueue.items
  rw [hempty, hk, List.take_length, List.flatMap_nil, List.append_nil] at hitems
  exact hitems

/-! ## Out of order -/

def Sound (r : Rendering α β) (t : Shipping ι α β (List β)) : Prop :=
  ∀ item, Copied t item → item ∈ r.renderAll t.log

def Gap (r : Rendering α β) (base : Nat) (t : Shipping ι α β (List β)) : Prop :=
  ∃ n n', base < n ∧ n < n' ∧ ¬ Collected r t n ∧ Collected r t n'

/-- An item is or will be in the stream twice. -/
def Twice (t : Shipping ι α β (List β)) : Prop :=
  ¬ t.sink.Nodup ∨ ∃ item p q, p ≠ q ∧ item ∈ t.place p ∧ item ∈ t.place q

/-- An item is or will be in the stream after an item of a later entry. -/
def Inverted (r : Rendering α β) (t : Shipping ι α β (List β)) : Prop :=
  ¬ t.sink.Pairwise (fun x y => r.number x ≤ r.number y) ∨
    ∃ item ∈ t.sink, ∃ i, ∃ other ∈ (t.debts i).items,
      r.number other < r.number item

structure Unspoiled (r : Rendering α β) (base : Nat)
    (t : Shipping ι α β (List β)) : Prop where
  gap : ¬ Gap r base t
  twice : ¬ Twice t
  inverted : ¬ Inverted r t
  accounted : AccountedFor r.stream base t

def Act.chunk : Act β → List β
  | .put chunk => chunk
  | _ => []

section Steps

variable [DecidableEq ι] {base : Nat} {i : ι} {act : Act β}
  {t t' : Shipping ι α β (List β)}

theorem Ship.sink_eq (h : Ship r.stream i act t t') :
    t'.sink = t.sink ++ act.chunk := by
  cases h with
  | put copied => rfl
  | _ => exact (List.append_nil _).symm

theorem Ship.mem_place (h : Ship r.stream i act t t') (hact : act ≠ .fail)
    {p : Option ι} {item : β} (hitem : item ∈ t.place p) :
    item ∈ t'.place p ∨ p = some i ∧ item ∈ act.chunk := by
  cases p with
  | none =>
      left
      change item ∈ t'.sink
      rw [h.sink_eq]
      exact List.mem_append_left _ hitem
  | some j =>
      by_cases hj : j = i
      · subst hj
        simp only [Shipping.place] at hitem ⊢
        cases h with
        | rest => exact .inl hitem
        | append new clear =>
            rw [clear] at hitem
            cases hitem
        | copy behind =>
            rw [behind] at hitem
            cases hitem
        | put copied =>
            rw [copied] at hitem
            simp only [Function.update_self, true_and]
            exact (List.mem_append.mp hitem).symm
        | leave new empty =>
            rw [empty] at hitem
            cases hitem
        | fail => exact absurd rfl hact
      · left
        simp only [Shipping.place] at hitem ⊢
        cases h <;> simpa only [Function.update_of_ne hj] using hitem

theorem Ship.copied (h : Ship r.stream i act t t') (hact : act ≠ .fail)
    {item : β} (hitem : Copied t item) : Copied t' item := by
  obtain ⟨p, hp⟩ := hitem
  rcases h.mem_place hact hp with hstay | ⟨-, hput⟩
  · exact ⟨p, hstay⟩
  · refine ⟨none, ?_⟩
    rw [Shipping.place, h.sink_eq]
    exact List.mem_append_right _ hput

theorem Ship.collected (h : Ship r.stream i act t t') (hact : act ≠ .fail)
    {n : Nat} (hn : Collected r t n) : Collected r t' n := by
  obtain ⟨item, hitem, hnumber⟩ := hn
  exact ⟨item, h.copied hact hitem, hnumber⟩

theorem Ship.twice_of_chunk (h : Ship r.stream i act t t') (hact : act ≠ .fail)
    {item : β} (hchunk : item ∈ act.chunk) {p : Option ι} (hp : p ≠ some i)
    (hitem : item ∈ t.place p) : Twice t' := by
  cases p with
  | none =>
      refine .inl fun hnodup => ?_
      rw [h.sink_eq] at hnodup
      exact (List.nodup_append.mp hnodup).2.2 item hitem item hchunk rfl
  | some j =>
      have hsink : item ∈ t'.place none := by
        rw [Shipping.place, h.sink_eq]
        exact List.mem_append_right _ hchunk
      rcases h.mem_place hact hitem with hstay | ⟨hmoved, -⟩
      · exact .inr ⟨item, some j, none, nofun, hstay, hsink⟩
      · exact absurd hmoved hp

theorem Ship.twice (h : Ship r.stream i act t t') (hact : act ≠ .fail)
    (htwice : Twice t) : Twice t' := by
  rcases htwice with hdup | ⟨item, p, q, hpq, hp, hq⟩
  · refine .inl fun hnodup => hdup ?_
    rw [h.sink_eq] at hnodup
    exact (List.nodup_append.mp hnodup).1
  · rcases h.mem_place hact hp with hp' | ⟨rfl, hchunk⟩
    · rcases h.mem_place hact hq with hq' | ⟨rfl, hchunk⟩
      · exact .inr ⟨item, p, q, hpq, hp', hq'⟩
      · exact h.twice_of_chunk hact hchunk hpq hp
    · exact h.twice_of_chunk hact hchunk hpq.symm hq

theorem Ship.inverted (h : Ship r.stream i act t t') (hact : act ≠ .fail)
    (hinverted : Inverted r t) : Inverted r t' := by
  rcases hinverted with hsink | ⟨item, hitem, j, other, hother, hlt⟩
  · refine .inl fun hsorted => hsink ?_
    rw [h.sink_eq] at hsorted
    exact (List.pairwise_append.mp hsorted).1
  · rcases h.mem_place hact (p := some j) hother with hstay | ⟨-, hchunk⟩
    · refine .inr ⟨item, ?_, j, other, hstay, hlt⟩
      rw [h.sink_eq]
      exact List.mem_append_left _ hitem
    · refine .inl fun hsorted => ?_
      rw [h.sink_eq] at hsorted
      have hle := (List.pairwise_append.mp hsorted).2.2 item hitem other hchunk
      exact absurd hle (Nat.not_le.mpr hlt)

theorem Ship.copied_cases (h : Ship r.stream i act t t') {item : β}
    (hitem : Copied t' item) :
    Copied t item ∨ act = .copy ∧ ∃ seen, t.debts i = .tail seen ∧
      item ∈ r.renderAll (t.log.drop seen) := by
  obtain ⟨p, hp⟩ := hitem
  have hold : ∀ {debt : Debt β} {j},
      item ∈ (Function.update t.debts i debt j).items →
      item ∈ debt.items ∨ Copied t item := by
    intro debt j hj
    by_cases hji : j = i
    · subst hji
      rw [Function.update_self] at hj
      exact .inl hj
    · rw [Function.update_of_ne hji] at hj
      exact .inr ⟨some j, hj⟩
  cases p with
  | none =>
      rw [Shipping.place, h.sink_eq] at hp
      rcases List.mem_append.mp hp with hsink | hchunk
      · exact .inl ⟨none, hsink⟩
      · cases h with
        | put copied =>
            refine .inl ⟨some i, ?_⟩
            rw [Shipping.place, copied]
            exact List.mem_append_left _ hchunk
        | _ => cases hchunk
  | some j =>
      cases h with
      | rest => exact .inl ⟨some j, hp⟩
      | append new clear => exact .inl ((hold hp).resolve_left nofun)
      | copy behind =>
          exact (hold hp).symm.imp_right fun hnew => ⟨rfl, _, behind, hnew⟩
      | put copied =>
          refine .inl ((hold hp).elim (fun hrest => ⟨some i, ?_⟩) id)
          rw [Shipping.place, copied]
          exact List.mem_append_right _ hrest
      | leave new empty => exact .inl ((hold hp).resolve_left nofun)
      | fail copied => exact .inl ((hold hp).resolve_left nofun)

theorem Ship.sound (h : Ship r.stream i act t t') (hsound : Sound r t) :
    Sound r t' := by
  intro item hitem
  have hlog : t.log <+: t'.log := by
    cases h <;> simp
  have hmono : ∀ x, x ∈ r.renderAll t.log → x ∈ r.renderAll t'.log := by
    obtain ⟨new, hnew⟩ := hlog
    intro x hx
    rw [← hnew, Rendering.renderAll_append]
    exact List.mem_append_left _ hx
  rcases h.copied_cases hitem with hold | ⟨-, seen, -, hnew⟩
  · exact hmono item (hsound item hold)
  · refine hmono item ?_
    rw [← List.take_append_drop seen t.log, Rendering.renderAll_append]
    exact List.mem_append_right _ hnew

theorem Ship.place_copy (h : Ship r.stream i .copy t t') {seen : Nat}
    (hdebt : t.debts i = .tail seen) :
    t'.place (some i) = r.renderAll (t.log.drop seen) := by
  cases h with
  | copy behind =>
      obtain rfl := Debt.tail.inj (hdebt.symm.trans behind)
      simp only [Shipping.place, Function.update_self]
      rfl

theorem Ship.twice_of_copy (h : Ship r.stream i .copy t t')
    (hlog : r.Numbered t.log) (hsound : Sound r t) {seen n : Nat}
    (hdebt : t.debts i = .tail seen) (hn : seen < n)
    (hcollected : Collected r t n) : Twice t' := by
  obtain ⟨item, ⟨p, hp⟩, rfl⟩ := hcollected
  have htail : item ∈ r.renderAll (t.log.drop seen) := by
    have hall := hsound item ⟨p, hp⟩
    rw [← List.take_append_drop seen t.log, Rendering.renderAll_append] at hall
    refine (List.mem_append.mp hall).resolve_left fun hbefore => ?_
    have hle :=
      (((hlog.take seen).mem_renderTail 0 _).mp ⟨item, hbefore, rfl⟩).2
    rw [List.length_take] at hle
    omega
  have hpi : p ≠ some i := by
    rintro rfl
    rw [Shipping.place, hdebt] at hp
    cases hp
  exact .inr ⟨item, p, some i, hpi, (h.mem_place nofun hp).resolve_right nofun,
    by rwa [h.place_copy hdebt]⟩

/--
A gap stays, or the entry that was passed over is copied together with a later
one.
-/
theorem Ship.gap (h : Ship r.stream i act t t') (hact : act ≠ .fail)
    (hlog : r.Numbered t.log) (hsound : Sound r t) (hgap : Gap r base t) :
    Gap r base t' ∨ Twice t' := by
  obtain ⟨n, n', hbase, hlt, hmissing, hlater⟩ := hgap
  by_cases hn : Collected r t' n
  · right
    obtain ⟨item, hitem, rfl⟩ := hn
    rcases h.copied_cases hitem with hold | ⟨rfl, seen, hdebt, hnew⟩
    · exact absurd ⟨item, hold, rfl⟩ hmissing
    · have hseen := ((hlog.mem_renderTail seen _).mp ⟨item, hnew, rfl⟩).1
      exact h.twice_of_copy hlog hsound hdebt (hseen.trans hlt) hlater
  · exact .inl ⟨n, n', hbase, hlt, hn, h.collected hact hlater⟩

/--
A step out of order spoils the stream, and a spoiled stream stays spoiled.
-/
theorem Ship.unspoiled (h : Ship r.stream i act t t') (hact : act ≠ .fail)
    (hlog : r.Numbered t.log) (hsound : Sound r t)
    (hunspoiled : Unspoiled r base t') :
    Unspoiled r base t ∧ InOrder r base i act t t' := by
  obtain ⟨haccounted, hcovered⟩ :=
    (h.accounted_iff hlog base).mp hunspoiled.accounted
  refine ⟨⟨fun hgap => ?_, fun htwice => ?_, fun hinverted => ?_, haccounted⟩,
    ?_, ?_, hcovered⟩
  · exact (h.gap hact hlog hsound hgap).elim hunspoiled.gap hunspoiled.twice
  · exact hunspoiled.twice (h.twice hact htwice)
  · exact hunspoiled.inverted (h.inverted hact hinverted)
  · rintro rfl seen hdebt hlt
    refine ⟨fun n hbase hn => ?_, fun n hn _ hcollected =>
      hunspoiled.twice (h.twice_of_copy hlog hsound hdebt hn hcollected)⟩
    by_contra hmissing
    refine hunspoiled.gap ⟨n, seen + 1, hbase, by omega, ?_, ?_⟩
    · rintro ⟨item, hitem, rfl⟩
      rcases h.copied_cases hitem with hold | ⟨-, seen', hdebt', hnew⟩
      · exact hmissing ⟨item, hold, rfl⟩
      · obtain rfl := Debt.tail.inj (hdebt.symm.trans hdebt')
        have hseen := ((hlog.mem_renderTail seen _).mp ⟨item, hnew, rfl⟩).1
        omega
    · obtain ⟨item, hitem, hnumber⟩ :=
        (hlog.mem_renderTail seen (seen + 1)).mpr ⟨by omega, hlt⟩
      exact ⟨item, ⟨some i, by rwa [h.place_copy hdebt]⟩, hnumber⟩
  · rintro chunk rfl item hitem j hj other hother
    refine Nat.le_of_not_lt fun hlt =>
      hunspoiled.inverted (.inr ⟨item, ?_, j, other, ?_, hlt⟩)
    · rw [h.sink_eq]
      exact List.mem_append_right _ hitem
    · exact (h.mem_place hact (p := some j) hother).resolve_right
        fun hmoved => hj (Option.some.inj hmoved.1)

end Steps

theorem unspoiled_of_complete {base : Nat} {t : Shipping ι α β (List β)}
    (hlog : r.Numbered t.log) (hclear : ∀ i, t.debts i = .batch [])
    (hsink : t.sink = r.renderAll (t.log.drop base)) : Unspoiled r base t := by
  have hascending : (t.log.drop base).Pairwise fun a b =>
      r.entryNumber a < r.entryNumber b :=
    hlog.pairwise.sublist (List.drop_sublist base t.log)
  have hplace : ∀ {p item}, item ∈ t.place p → p = none ∧ item ∈ t.sink := by
    intro p item hitem
    cases p with
    | none => exact ⟨rfl, hitem⟩
    | some j =>
        rw [Shipping.place, hclear j] at hitem
        cases hitem
  have hcollected : ∀ n, Collected r t n ↔ base < n ∧ n ≤ t.log.length := by
    intro n
    rw [← hlog.mem_renderTail base n, ← hsink]
    constructor
    · rintro ⟨item, ⟨p, hp⟩, hnumber⟩
      exact ⟨item, (hplace hp).2, hnumber⟩
    · rintro ⟨item, hitem, hnumber⟩
      exact ⟨item, ⟨none, hitem⟩, hnumber⟩
  refine ⟨?_, ?_, ?_, fun n hbase hn => .inl ?_⟩
  · rintro ⟨n, n', hbase, hlt, hmissing, hlater⟩
    have hn' := ((hcollected n').mp hlater).2
    exact hmissing ((hcollected n).mpr ⟨hbase, by omega⟩)
  · rintro (hdup | ⟨item, p, q, hpq, hp, hq⟩)
    · exact hdup (hsink ▸ Rendering.nodup_renderAll hascending)
    · exact hpq ((hplace hp).1.trans (hplace hq).1.symm)
  · rintro (hsorted | ⟨item, -, j, other, hother, -⟩)
    · exact hsorted (hsink ▸ Rendering.sorted_renderAll hascending)
    · cases (hplace (p := some j) hother).1
  · change ∃ item ∈ t.sink, r.number item = n
    rw [hsink, hlog.mem_renderTail]
    exact ⟨hbase, hn⟩

end ClobApi.Foundation
