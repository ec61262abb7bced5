import CppMtHw.NetEngine.ChannelMap

/-!
# Fresh descriptors

`create_channel()` walks the map of channels in step with a counter and takes the first number that
is not met. The walk starts at the smallest key, so it finds the smallest free descriptor only if
that key is not negative. Otherwise it stops at once, with 0.
-/

namespace CppMtHw.NetEngine

open Machine Coroutines

namespace World

variable {w : World} {m : List (ℤ × MapNode)} {chd j : ℤ} {history : List Event}

/-- `create_channel()` returns the smallest free descriptor, with an empty channel under it, and
leaves the other channels alone. -/
structure CreatesFresh (w : World) (c : Ctx) (fresh : FreshBuffer) (d : ℤ) (w' : World) : Prop where
  ret : w.exec c (.create fresh) = .ok ([.created d (w.refAt d), .createRet c d], w')
  nonneg : 0 ≤ d
  free : w.nodeAt d = none
  smallest : ∀ j, 0 ≤ j → j < d → w.nodeAt j ≠ none
  bounded : d ≤ w.channels.length
  empty : ∃ node, w'.nodeAt d = some node ∧ node.channel.unread = []
  others : ∀ j, j ≠ d → w'.nodeAt j = w.nodeAt j

/-- The counter goes up by one for each key that it meets. -/
theorem smallestFree_bounds (chd : ℤ) (m : List (ℤ × MapNode)) :
    chd ≤ smallestFree chd m ∧ smallestFree chd m ≤ chd + m.length := by
  induction m generalizing chd with
  | nil => simp [smallestFree]
  | cons it its ih =>
      simp only [smallestFree, List.length_cons]
      split
      · omega
      · obtain ⟨hge, hle⟩ := ih (chd + 1)
        push_cast
        omega

/-- Every number that it passes is a key. -/
theorem exists_of_lt_smallestFree (hge : chd ≤ j) (hlt : j < smallestFree chd m) :
    ∃ p ∈ m, p.1 = j := by
  induction m generalizing chd with
  | nil =>
      simp only [smallestFree] at hlt
      omega
  | cons it its ih =>
      simp only [smallestFree] at hlt
      split at hlt
      · omega
      · rename_i heq
        by_cases hj : j = chd
        · exact ⟨it, List.mem_cons_self, (not_not.mp heq).trans hj.symm⟩
        · obtain ⟨p, hp, hpj⟩ := ih (by omega) hlt
          exact ⟨p, List.mem_cons_of_mem it hp, hpj⟩

/-- With a negative key in front the loop stops at once. -/
theorem smallestFree_of_negative (hsorted : SortedMap.Sorted (· < ·) m) (hneg : ∃ p ∈ m, p.1 < 0) :
    smallestFree 0 m = 0 := by
  cases m with
  | nil => rfl
  | cons it its =>
      have hit : it.1 < 0 := by
        obtain ⟨p, hp, hp0⟩ := hneg
        rcases List.mem_cons.mp hp with rfl | hmem
        · exact hp0
        · have hlt := (List.pairwise_cons.mp hsorted).1 p hmem
          omega
      exact if_pos hit.ne

theorem nodeAt_ne_none_iff (hmap : w.ChannelMap) :
    w.nodeAt j ≠ none ↔ ∃ p ∈ w.channels, p.1 = j := by
  rw [ne_eq, nodeAt_eq_none_iff]
  constructor
  · intro hsome
    obtain ⟨p, hfind⟩ := Option.ne_none_iff_exists'.mp hsome
    exact ⟨p, find_eq_some hfind⟩
  · rintro ⟨p, hp, rfl⟩
    have hfind : find p.1 w.channels = some p := hmap.sorted.mem_iff_find.mp hp
    simp [hfind]

theorem exec_create {c : Ctx} {fresh : FreshBuffer} : w.exec c (.create fresh) =
    .ok ([.created (smallestFree 0 w.channels) (w.refAt (smallestFree 0 w.channels)),
      .createRet c (smallestFree 0 w.channels)],
      w.newChannel (smallestFree 0 w.channels) fresh) := by
  rw [← smallestFree_of_empty w.channels]
  rfl

/-- What it returns is the smallest free descriptor whenever it is free at all. -/
theorem createsFresh_of_free (hmap : w.ChannelMap) (c : Ctx) (fresh : FreshBuffer)
    (hfree : w.nodeAt (smallestFree 0 w.channels) = none) :
    w.CreatesFresh c fresh (smallestFree 0 w.channels)
      (w.newChannel (smallestFree 0 w.channels) fresh) where
  ret := exec_create
  nonneg := (smallestFree_bounds 0 w.channels).1
  free := hfree
  smallest j hj hlt := (nodeAt_ne_none_iff hmap).mpr (exists_of_lt_smallestFree hj hlt)
  bounded := by
    have hle := (smallestFree_bounds 0 w.channels).2
    omega
  empty := by
    rw [newChannel_of_none fresh hfree, nodeAt_addChannel, if_pos rfl]
    exact ⟨_, rfl, Channel.new_unread _⟩
  others j hj := by rw [newChannel_of_none fresh hfree, nodeAt_addChannel, if_neg hj]

/-- It is not free if and only if 0 is taken and a negative key hides this. -/
theorem smallestFree_free_iff (hmap : w.ChannelMap) :
    w.nodeAt (smallestFree 0 w.channels) = none ↔ w.nodeAt 0 = none ∨
    ∀ j < 0, w.nodeAt j = none := by
  by_cases hneg : ∃ j < 0, w.nodeAt j ≠ none
  · have hzero : smallestFree 0 w.channels = 0 := by
      obtain ⟨j, hj0, hj⟩ := hneg
      obtain ⟨p, hp, rfl⟩ := (nodeAt_ne_none_iff hmap).mp hj
      exact smallestFree_of_negative hmap.sorted ⟨p, hp, hj0⟩
    rw [hzero]
    constructor
    · exact Or.inl
    · intro h
      apply h.resolve_right
      obtain ⟨j, hj0, hj⟩ := hneg
      exact fun hnone ↦ hj (hnone j hj0)
  · have hnone : ∀ j < 0, w.nodeAt j = none := by
      intro j hj0
      by_contra hj
      exact hneg ⟨j, hj0, hj⟩
    apply iff_of_true _ (Or.inr hnone)
    by_contra hsome
    obtain ⟨node, hnode⟩ := Option.ne_none_iff_exists'.mp hsome
    exact hneg (exists_negative hmap hnode)

end World

open World

/-- In every world that can be reached `create_channel()` returns the smallest free descriptor, with
an empty channel under it, and leaves the others alone, if and only if 0 is free or there is no
channel with a negative descriptor. -/
theorem create_channel_iff {w : World} {history : List Event} (h : Reaches w history) (c : Ctx)
    (fresh : FreshBuffer) :
    (∃ d w', w.CreatesFresh c fresh d w') ↔ w.nodeAt 0 = none ∨ ∀ j < 0, w.nodeAt j = none := by
  rw [← smallestFree_free_iff h.channelMap]
  constructor
  · rintro ⟨d, w', hcreates⟩
    have hevents := (Prod.mk.inj (Except.ok.inj (exec_create.symm.trans hcreates.ret))).1
    simp only [List.cons.injEq, Event.created.injEq] at hevents
    rw [hevents.1.1]
    exact hcreates.free
  · intro hfree
    exact ⟨_, _, createsFresh_of_free h.channelMap c fresh hfree⟩

/-- After `create_channel(2)` and `create_channel()` the next descriptor is 1. -/
theorem create_channel_gap : ∃ w history, playFromStart [.createAt 2 zeros, .create zeros] =
    some (history, w) ∧ w.channels.map Prod.fst = [0, 2] ∧ ∃ d w', w.CreatesFresh 0 zeros d w' := by
  have hplay : (playFromStart [.createAt 2 zeros, .create zeros]).map
      (fun r ↦ r.2.channels.map Prod.fst) = some [0, 2] := by
    decide +kernel
  obtain ⟨⟨history, w⟩, hw, hkeys⟩ := Option.map_eq_some_iff.mp hplay
  have hreaches := reaches_of_play hw
  refine ⟨w, history, hw, hkeys, (create_channel_iff hreaches 0 zeros).mpr (Or.inr fun j hj ↦ ?_)⟩
  by_contra hsome
  obtain ⟨p, hp, rfl⟩ := (nodeAt_ne_none_iff hreaches.channelMap).mp hsome
  have hkey : p.1 ∈ [(0 : ℤ), 2] := hkeys ▸ List.mem_map_of_mem hp
  simp only [List.mem_cons, List.not_mem_nil, or_false] at hkey
  omega

/-- With channels -1 and 0, `create_channel()` returns 0 again, and the byte that was unread there
is lost. -/
theorem create_channel_overwrites : ∃ w history w', Reaches w history ∧
    w.exec 0 (.create zeros) = .ok ([.created 0 1, .createRet 0 0], w') ∧
    (w.nodeAt 0).map (fun node ↦ node.channel.unread) = some [7] ∧
    (w'.nodeAt 0).map (fun node ↦ node.channel.unread) = some [] ∧
    ¬∃ d w', w.CreatesFresh 0 zeros d w' := by
  have hplay : ((playFromStart [.createAt (-1) zeros, .createAt 0 zeros, .send 0 [7]]).bind fun r ↦
      (r.2.exec 0 (.create zeros)).toOption.map fun p ↦
        (p.1, (r.2.nodeAt 0).map fun node ↦ node.channel.unread,
          (p.2.nodeAt 0).map fun node ↦ node.channel.unread)) =
        some ([.created 0 1, .createRet 0 0], some [7], some []) := by
    decide +kernel
  obtain ⟨⟨history, w⟩, hw, hplay⟩ := Option.bind_eq_some_iff.mp hplay
  cases hexec : w.exec 0 (.create zeros) with
  | error err =>
      rw [hexec] at hplay
      cases hplay
  | ok p =>
      obtain ⟨events, w'⟩ := p
      rw [hexec] at hplay
      simp only [Except.toOption, Option.map_some, Option.some.injEq, Prod.mk.injEq] at hplay
      obtain ⟨rfl, hunread, hlost⟩ := hplay
      refine ⟨w, history, w', reaches_of_play hw, hexec, hunread, hlost, ?_⟩
      rintro ⟨d, w'', hcreates⟩
      have hevents := (Prod.mk.inj (Except.ok.inj (hexec.symm.trans hcreates.ret))).1
      simp only [List.cons.injEq, Event.created.injEq] at hevents
      have hfree := hcreates.free
      rw [← hevents.1.1] at hfree
      rw [hfree] at hunread
      cases hunread

end CppMtHw.NetEngine
