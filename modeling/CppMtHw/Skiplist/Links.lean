import CppMtHw.Skiplist.Shape

/-!
# Assignments to nodes

What each assignment, allocation and deletion does to the fields of the nodes, read
through `dataBody`, `indexBody`, `dataLink` and `indexLink`. A node spliced in or skipped
changes one link of its list.
-/

namespace CppMtHw.Skiplist

open Machine

variable {K V : Type}

/-- A node with body `b` is spliced in at `y`, behind `x`. -/
structure SplicedIn {B : Type} (body body' : ℕ → Option B) (link link' : ℕ → Option ℕ) (x y : ℕ)
    (b : B) : Prop where
  body : ∀ p, body' p = if p = y then some b else body p
  behind : link' x = some y
  ahead : link' y = link x
  same : ∀ z, z ≠ x → z ≠ y → link' z = link z

/-- The node at `y`, behind `x`, is skipped and deleted. -/
structure SkippedOver {B : Type} (body body' : ℕ → Option B) (link link' : ℕ → Option ℕ)
    (x y : ℕ) : Prop where
  body : ∀ p, body' p = if p = y then none else body p
  behind : link' x = link y
  same : ∀ z, z ≠ x → z ≠ y → link' z = link z

section Memory

variable {N A : Type} {memory : ℕ → Option N} {p q : ℕ} {object : Option N}

theorem map_assign (f : N → A) : (assign memory (some p) object q).map f =
    if q = p then object.map f else (memory q).map f := by
  simp only [assign, Option.some.injEq, eq_comm]
  split <;> rfl

theorem bind_assign (f : N → Option A) : (assign memory (some p) object q).bind f =
    if q = p then object.bind f else (memory q).bind f := by
  simp only [assign, Option.some.injEq, eq_comm]
  split <;> rfl

theorem deref_eq {node : N} (h : memory p = some node) : deref memory (some p) = .ok node := by
  simp only [deref, h]

end Memory

namespace Heap

variable {h : Heap K V} {p q x y n : ℕ}

@[simp] theorem putData_dataBody (object : Option (DataNode K V)) :
    (h.putData (some p) object).dataBody q =
      if q = p then object.map fun node ↦ (node.pKey, node.pValue) else h.dataBody q := map_assign _

@[simp] theorem putData_dataLink (object : Option (DataNode K V)) :
    (h.putData (some p) object).dataLink q =
      if q = p then object.bind DataNode.pNext else h.dataLink q := bind_assign _

@[simp] theorem putIndex_indexBody (object : Option IndexNode) :
    (h.putIndex (some p) object).indexBody q =
      if q = p then object.map fun node ↦ (node.pDown, node.pRoot) else h.indexBody q :=
        map_assign _

@[simp] theorem putIndex_indexLink (object : Option IndexNode) :
    (h.putIndex (some p) object).indexLink q =
      if q = p then object.bind IndexNode.pNext else h.indexLink q := bind_assign _

/-! ## Data nodes -/

theorem exists_data {b : Option K × Option V} (hb : h.dataBody p = some b) :
    ∃ node, h.data p = some node ∧ (node.pKey, node.pValue) = b ∧ h.dataLink p = node.pNext := by
  obtain ⟨node, hnode, hbody⟩ := Option.map_eq_some_iff.mp hb
  exact ⟨node, hnode, hbody, by rw [dataLink, hnode]; rfl⟩

theorem setDataValue_ok {k : Option K} {v : Option V} {w : V} (hp : h.dataBody p = some (k, v)) :
    ∃ h', h.setDataValue (some p) w = .ok (v, h') ∧ h'.index = h.index ∧ h'.fresh = h.fresh ∧
      h'.dataLink = h.dataLink ∧
      ∀ z, h'.dataBody z = if z = p then some (k, some w) else h.dataBody z := by
  obtain ⟨node, hnode, hbody, hlink⟩ := exists_data hp
  obtain ⟨rfl, rfl⟩ := Prod.mk.inj hbody
  refine ⟨h.putData (some p) (some { node with pValue := some w }), ?_, rfl, rfl, ?_, fun z ↦ ?_⟩
  · simp only [setDataValue, deref_eq hnode, ok_bind]
    rfl
  · funext z
    rw [putData_dataLink]
    split
    · rename_i hz
      rw [hz, hlink]
      rfl
    · rfl
  · exact putData_dataBody _

/-- `insert_pair` puts a new data node behind `x`. -/
theorem linkData_ok {b : Option K × Option V} (hx : h.dataBody x = some b)
    (hlink : h.dataLink x = some n) (hfresh : h.dataBody h.fresh = none) (key : K) (value : V) :
    ∃ h', h.linkData (some x) key value = .ok (h.fresh, h') ∧ h'.index = h.index ∧
      h'.fresh = h.fresh + 1 ∧
      SplicedIn h.dataBody h'.dataBody h.dataLink h'.dataLink x h.fresh (some key, some value) := by
  obtain ⟨node, hnode, rfl, hnext⟩ := exists_data hx
  have hne : h.fresh ≠ x := by
    rintro rfl
    rw [hx] at hfresh
    cases hfresh
  have hlinked : h.linkData (some x) key value = .ok (h.fresh,
      { ((h.putData (some h.fresh) (some ⟨some key, some value, none⟩)).putData (some h.fresh)
          (some ⟨some key, some value, some n⟩)).putData (some x)
            (some { node with pNext := some h.fresh }) with fresh := h.fresh + 1 }) := by
    simp [linkData, newData, dataNext, setDataNext, putData, deref, assign, reference, hne, hnode,
      ← hnext, hlink, pure, Except.pure]
  refine ⟨_, hlinked, rfl, rfl, ⟨fun p ↦ ?_, ?_, ?_, fun z hzx hzy ↦ ?_⟩⟩
  · show (((h.putData _ _).putData _ _).putData _ _).dataBody p = _
    simp only [putData_dataBody, Option.map_some]
    split
    · rename_i hp
      rw [hp, if_neg hne.symm, hx]
    · split <;> rfl
  · show (((h.putData _ _).putData _ _).putData _ _).dataLink x = _
    simp only [putData_dataLink, if_true, Option.bind_some]
  · show (((h.putData _ _).putData _ _).putData _ _).dataLink h.fresh = _
    simp only [putData_dataLink, if_neg hne, if_true, Option.bind_some, hlink]
  · show (((h.putData _ _).putData _ _).putData _ _).dataLink z = _
    simp only [putData_dataLink, if_neg hzx, if_neg hzy]

/-- `Delete` takes the data node behind `x` out of the list. -/
theorem unlinkData_ok {b : Option K × Option V} {key : K} {v : Option V}
    (hx : h.dataBody x = some b) (hy : h.dataBody y = some (some key, v)) (hxy : y ≠ x)
    (hlink : h.dataLink y = some n) :
    ∃ h₁ h₂, h.dataNext (some y) = .ok n ∧ h.setDataNext (some x) n = .ok h₁ ∧
      h₁.deleteData (some y) = .ok h₂ ∧ h₂.index = h.index ∧ h₂.fresh = h.fresh ∧
      SkippedOver h.dataBody h₂.dataBody h.dataLink h₂.dataLink x y := by
  obtain ⟨node, hnode, rfl, -⟩ := exists_data hx
  obtain ⟨last, hlast, hbody, -⟩ := exists_data hy
  obtain ⟨hkey, -⟩ := Prod.mk.inj hbody
  have hset : h.setDataNext (some x) n =
      .ok (h.putData (some x) (some { node with pNext := some n })) := by
    simp only [setDataNext, deref_eq hnode, ok_bind]
    rfl
  have hkeyOk : (h.putData (some x) (some { node with pNext := some n })).dataKey
      (some y) = .ok key := by
    refine dataKey_ok (v := v) ?_
    rw [putData_dataBody, if_neg hxy, hy]
  refine ⟨_, (h.putData (some x) (some { node with pNext := some n })).putData (some y) none,
    dataNext_ok hlink, hset, ?_, rfl, rfl, ⟨fun p ↦ ?_, ?_, fun z hzx hzy ↦ ?_⟩⟩
  · simp only [deleteData, hkeyOk, ok_bind]
    rfl
  · simp only [putData_dataBody, Option.map_some, Option.map_none]
    split
    · rfl
    · split
      · rename_i hp
        rw [hp, hx]
      · rfl
  · simp only [putData_dataLink, if_neg (Ne.symm hxy), if_true, Option.bind_some, hlink]
  · simp only [putData_dataLink, if_neg hzx, if_neg hzy]

/-! ## Index nodes -/

theorem exists_index {b : Option NodePtr × Option DataPtr} (hb : h.indexBody p = some b) :
    ∃ node, h.index p = some node ∧ (node.pDown, node.pRoot) = b ∧ h.indexLink p = node.pNext := by
  obtain ⟨node, hnode, hbody⟩ := Option.map_eq_some_iff.mp hb
  exact ⟨node, hnode, hbody, by rw [indexLink, hnode]; rfl⟩

/-- `insert_pair` puts a new index node behind `x`. -/
theorem linkIndex_ok {b : Option NodePtr × Option DataPtr} (hx : h.indexBody x = some b)
    (hlink : h.indexLink x = some n) (hfresh : h.indexBody h.fresh = none) (down : NodePtr)
    (data : DataPtr) :
    ∃ h', h.linkIndex (some x) down data = .ok (h.fresh, h') ∧ h'.data = h.data ∧
      h'.fresh = h.fresh + 1 ∧
      SplicedIn h.indexBody h'.indexBody h.indexLink h'.indexLink x h.fresh
        (some down, some data) := by
  obtain ⟨node, hnode, rfl, hnext⟩ := exists_index hx
  have hne : h.fresh ≠ x := by
    rintro rfl
    rw [hx] at hfresh
    cases hfresh
  have hlinked : h.linkIndex (some x) down data = .ok (h.fresh,
      { ((h.putIndex (some h.fresh) (some ⟨some down, some data, none⟩)).putIndex (some h.fresh)
          (some ⟨some down, some data, some n⟩)).putIndex (some x)
            (some { node with pNext := some h.fresh }) with fresh := h.fresh + 1 }) := by
    simp [linkIndex, newIndex, next, setNext, putIndex, deref, assign, reference, hne, hnode,
      ← hnext, hlink, pure, Except.pure]
  refine ⟨_, hlinked, rfl, rfl, ⟨fun p ↦ ?_, ?_, ?_, fun z hzx hzy ↦ ?_⟩⟩
  · show (((h.putIndex _ _).putIndex _ _).putIndex _ _).indexBody p = _
    simp only [putIndex_indexBody, Option.map_some]
    split
    · rename_i hp
      rw [hp, if_neg hne.symm, hx]
    · split <;> rfl
  · show (((h.putIndex _ _).putIndex _ _).putIndex _ _).indexLink x = _
    simp only [putIndex_indexLink, if_true, Option.bind_some]
  · show (((h.putIndex _ _).putIndex _ _).putIndex _ _).indexLink h.fresh = _
    simp only [putIndex_indexLink, if_neg hne, if_true, Option.bind_some, hlink]
  · show (((h.putIndex _ _).putIndex _ _).putIndex _ _).indexLink z = _
    simp only [putIndex_indexLink, if_neg hzx, if_neg hzy]

theorem setValue_eq {down : Option NodePtr} {r : Option DataPtr} {w : V}
    (hp : h.indexBody p = some (down, r)) : h.setValue (some p) w = h.setDataValue r w := by
  obtain ⟨node, hnode, hbody, -⟩ := exists_index hp
  obtain ⟨-, hroot⟩ := Prod.mk.inj hbody
  simp only [setValue, deref_eq hnode, ok_bind, hroot]

/-- An assignment to a link changes no other field. -/
theorem setNext_ok {b : Option NodePtr × Option DataPtr} (hx : h.indexBody x = some b) :
    ∃ h', h.setNext (some x) n = .ok h' ∧ h'.data = h.data ∧ h'.fresh = h.fresh ∧
      (∀ z, h'.indexBody z = h.indexBody z) ∧
      ∀ z, h'.indexLink z = if z = x then some n else h.indexLink z := by
  obtain ⟨node, hnode, rfl, -⟩ := exists_index hx
  refine ⟨h.putIndex (some x) (some { node with pNext := some n }), ?_, rfl, rfl, fun z ↦ ?_,
    fun z ↦ putIndex_indexLink _⟩
  · simp only [setNext, deref_eq hnode, ok_bind]
    rfl
  · rw [putIndex_indexBody]
    split
    · rename_i hz
      rw [hz, hx]
      rfl
    · rfl

/-- Where `down()` leads does not depend on the links. -/
theorem down_congr {h' : Heap K V} (hdata : h'.data = h.data)
    (hbody : ∀ z, h'.indexBody z = h.indexBody z) : h'.down (some p) = h.down (some p) := by
  have hcast : ∀ target, h'.asIndex target = h.asIndex target := by
    intro target
    match target with
    | none => rfl
    | some (.data q) => simp only [asIndex, hdata]
    | some (.index q) =>
        have hq := hbody q
        simp only [indexBody] at hq
        simp only [asIndex, deref]
        cases hold : h.index q <;> cases hnew : h'.index q <;> simp_all
  have hp := hbody p
  simp only [indexBody] at hp
  simp only [down, deref]
  cases hold : h.index p with
  | none =>
      rw [hold, Option.map_none, Option.map_eq_none_iff] at hp
      simp only [hp, hcast]
  | some node =>
      rw [hold, Option.map_some, Option.map_eq_some_iff] at hp
      obtain ⟨node', hnode', hfields⟩ := hp
      rw [hnode']
      simp only [ok_bind, hcast, (Prod.mk.inj hfields).1]

theorem deleteIndex_ok {b : Option NodePtr × Option DataPtr} (hx : h.indexBody x = some b) :
    ∃ h', h.deleteIndex (some x) = .ok h' ∧ h'.data = h.data ∧ h'.fresh = h.fresh ∧
      (∀ z, h'.indexBody z = if z = x then none else h.indexBody z) ∧
      ∀ z, z ≠ x → h'.indexLink z = h.indexLink z := by
  obtain ⟨node, hnode, -, -⟩ := exists_index hx
  refine ⟨h.putIndex (some x) none, ?_, rfl, rfl, fun z ↦ putIndex_indexBody _, fun z hz ↦ ?_⟩
  · simp only [deleteIndex, deref_eq hnode, ok_bind]
    rfl
  · rw [putIndex_indexLink, if_neg hz]

end Heap

end CppMtHw.Skiplist
