import Mathlib.Tactic.Ring
import CppMtHw.ExternalSort.Ways
import CppMtHw.Machine.KWayMerge

/-!
# Merging a group of files

`merge` of `hw03/main.cpp`: the first files of the queue are merged through their input
ways into one new file. The loop over the ways is the search for the greatest head, and
the file it leaves behind is the k-way merge of what the input files held.
-/

namespace CppMtHw.ExternalSort

open Machine Memory

def maxWays : ℕ := 20

def dataMinValue : Data := 0

/-- The loop that opens the input ways. The temporary that each way is moved from removes the name
of the file when it is destroyed. -/
def openWays (disk : Disk) (waySize : ℕ) : ℕ → List ℕ → Option (Disk × List InputWay)
  | _, [] => some (disk, [])
  | i, inputName :: inputs => do
      let temporary ← InputWay.new disk inputName (i * waySize) waySize
      let (way, temporary) := temporary.move
      let disk := temporary.destroy disk
      let (disk, ways) ← openWays disk waySize (i + 1) inputs
      some (disk, way :: ways)

/-- The loop over the ways that looks for the greatest entry, from way `i` on. -/
def scan (disk : Disk) : Memory → List InputWay → ℕ → Data → Option ℕ →
    Option (Memory × List InputWay × Option ℕ)
  | mem, [], _, _, maxWay => some (mem, [], maxWay)
  | mem, way :: ways, i, max, maxWay => do
      let (xi, mem, way) ← way.top disk mem
      let (mem, ways, maxWay) ←
        if ¬way.empty ∧ max < xi then scan disk mem ways (i + 1) xi (some i)
        else scan disk mem ways (i + 1) max maxWay
      some (mem, way :: ways, maxWay)

def mergeLoop : ℕ → Disk → Memory → List InputWay → OutputWay →
    Option (Disk × Memory × List InputWay × OutputWay)
  | 0, _, _, _, _ => none
  | fuel + 1, disk, mem, ways, out => do
      let (mem, ways, maxWay) ← scan disk mem ways 0 dataMinValue none
      match maxWay with
      | none => some (disk, mem, ways, out)
      | some i => do
          let way ← ways[i]?
          let (x, mem, way) ← way.get disk mem
          let (disk, mem, out) ← out.put disk mem x
          mergeLoop fuel disk mem (ways.set i way) out

def merge (fuel : ℕ) (disk : Disk) (inputs outputs : List ℕ) (mem : Memory) (bufSize : ℕ) :
    Option (Disk × List ℕ × List ℕ × Memory) := do
  let k := if maxWays < inputs.length then maxWays else inputs.length
  let waySize := bufSize / (k + 1)
  let (disk, ways) ← openWays disk waySize 0 (inputs.take k)
  let (out, disk) := OutputWay.new disk (k * waySize) waySize
  let (disk, mem, ways, out) ← mergeLoop fuel disk mem ways out
  let disk ← out.destroy disk mem
  let disk := ways.foldl InputWay.destroy disk
  some (disk, inputs.drop k, outputs ++ [out.fileName], mem)

variable {disk disk' : Disk} {mem mem' : Memory} {ways : List InputWay} {out : OutputWay}
  {waySize i j : ℕ} {rests : List (List Data)} {rest written : List Data} {x : Data}

/-! ## All the ways at once -/

/-- The ways read through consecutive slices, from slice `i` on. -/
def ReadAll (disk : Disk) (mem : Memory) (waySize : ℕ) : ℕ → List InputWay → List (List Data) → Prop
  | _, [], [] => True
  | i, way :: ways, rest :: rests =>
      way.Reads disk mem (i * waySize) waySize rest ∧ ReadAll disk mem waySize (i + 1) ways rests
  | _, _, _ => False

/-- Where the slice behind slice `i` and the slices behind it lie. -/
theorem slice_bounds (i count waySize : ℕ) :
    (i + 1) * waySize = i * waySize + waySize ∧
    (i + (count + 1)) * waySize = (i + 1 + count) * waySize ∧
    (i + 1) * waySize ≤ (i + 1 + count) * waySize := by
  refine ⟨by ring, by ring, Nat.mul_le_mul_right waySize (Nat.le_add_right _ _)⟩

theorem ReadAll.congr (h : ReadAll disk mem waySize i ways rests) (hmem : mem'.size = mem.size)
    (hslice : ∀ j, i * waySize ≤ j → j < (i + ways.length) * waySize → mem'.entry j = mem.entry j)
    (hdisk : ∀ way ∈ ways, disk'.content way.filename = disk.content way.filename) :
    ReadAll disk' mem' waySize i ways rests := by
  induction ways generalizing i rests with
  | nil => cases rests <;> exact h
  | cons way ways ih =>
      cases rests with
      | nil => exact h
      | cons rest rests =>
          obtain ⟨hway, hrest⟩ := h
          obtain ⟨hstart, hend, hle⟩ := slice_bounds i ways.length waySize
          rw [List.length_cons] at hslice
          refine ⟨hway.congr hmem (fun j hle hlt ↦ hslice j hle (by omega))
            (hdisk way List.mem_cons_self),
            ih hrest (fun j hle hlt ↦ hslice j (by omega) (by omega))
            fun w hw ↦ hdisk w (List.mem_cons_of_mem way hw)⟩

/-- Looking at the heads of all ways finds the greatest one, and uses up nothing. -/
theorem ReadAll.scan (h : ReadAll disk mem waySize i ways rests) (max : Data) (best : Option ℕ) :
    ∃ mem' ways', ExternalSort.scan disk mem ways i max best =
        some (mem', ways', KWay.scan rests i max best) ∧
      ways'.map InputWay.filename = ways.map InputWay.filename ∧
      ReadAll disk mem' waySize i ways' rests ∧
      AgreeOutside (i * waySize) ((i + ways.length) * waySize) mem mem' := by
  induction ways generalizing mem i rests max best with
  | nil =>
      cases rests with
      | nil => exact ⟨mem, [], rfl, rfl, trivial, AgreeOutside.refl _ _ _⟩
      | cons => exact h.elim
  | cons way ways ih =>
      cases rests with
      | nil => exact h.elim
      | cons rest rests =>
          obtain ⟨hway, hrest⟩ := h
          obtain ⟨mem₁, way₁, htop, hname, hway₁, hagree, -⟩ := hway.top
          obtain ⟨hstart, hend, hle⟩ := slice_bounds i ways.length waySize
          have hrest₁ : ReadAll disk mem₁ waySize (i + 1) ways rests :=
            hrest.congr hagree.size (fun j hj _ ↦ hagree.entry j (Or.inr (by omega))) fun _ _ ↦ rfl
          -- the scan goes on with the greater of the two maxima
          have hgoOn : ∀ max best, ∃ mem' ways',
              ExternalSort.scan disk mem₁ ways (i + 1) max best =
                some (mem', ways', KWay.scan rests (i + 1) max best) ∧
              (way₁ :: ways').map InputWay.filename = (way :: ways).map InputWay.filename ∧
              ReadAll disk mem' waySize i (way₁ :: ways') (rest :: rests) ∧
              AgreeOutside (i * waySize) ((i + (way :: ways).length) * waySize) mem mem' := by
            intro max best
            obtain ⟨mem', ways', hscan, hnames, hread, hagree'⟩ := ih hrest₁ max best
            refine ⟨mem', ways', hscan, ?_, ⟨?_, hread⟩, ?_⟩
            · rw [List.map_cons, List.map_cons, hname, hnames]
            · exact hway₁.congr hagree'.size (fun j _ hj ↦ hagree'.entry j (Or.inl (by omega))) rfl
            · rw [List.length_cons, hend]
              exact (hagree.mono (Nat.le_refl _) (by omega)).trans
                (hagree'.mono (by omega) (Nat.le_refl _))
          have hempty := hway₁.empty_iff
          cases rest with
          | nil =>
              obtain ⟨mem', ways', hscan, hrest'⟩ := hgoOn max best
              refine ⟨mem', way₁ :: ways', ?_, hrest'⟩
              have hstop : ¬(¬way₁.empty = true ∧ max < ([] : List Data).headD 0) :=
                fun hgo ↦ hgo.1 (hempty.mpr rfl)
              simp only [ExternalSort.scan, htop, Option.bind_eq_bind, Option.bind_some,
                if_neg hstop, hscan, KWay.scan]
          | cons x xs =>
              have hmore : way₁.empty = false := by
                rw [← Bool.not_eq_true, hempty]
                simp
              by_cases hlt : max < x
              · obtain ⟨mem', ways', hscan, hrest'⟩ := hgoOn x (some i)
                refine ⟨mem', way₁ :: ways', ?_, hrest'⟩
                simp only [ExternalSort.scan, htop, Option.bind_eq_bind, Option.bind_some,
                  List.headD_cons, hmore, hlt, hscan, KWay.scan]
                simp
              · obtain ⟨mem', ways', hscan, hrest'⟩ := hgoOn max best
                refine ⟨mem', way₁ :: ways', ?_, hrest'⟩
                simp only [ExternalSort.scan, htop, Option.bind_eq_bind, Option.bind_some,
                  List.headD_cons, hmore, hlt, hscan, KWay.scan]
                simp

/-- Taking an entry from one of the ways leaves the others as they are. -/
theorem ReadAll.get (h : ReadAll disk mem waySize i ways rests)
    (hj : rests[j]? = some (x :: rest)) :
    ∃ way mem' way', ways[j]? = some way ∧ way.get disk mem = some (x, mem', way') ∧
      (ways.set j way').map InputWay.filename = ways.map InputWay.filename ∧
      ReadAll disk mem' waySize i (ways.set j way') (rests.set j rest) ∧
      AgreeOutside (i * waySize) ((i + ways.length) * waySize) mem mem' := by
  induction ways generalizing i j rests with
  | nil =>
      cases rests with
      | nil => simp at hj
      | cons => exact h.elim
  | cons way ways ih =>
      cases rests with
      | nil => exact h.elim
      | cons rest' rests =>
          obtain ⟨hway, hrest⟩ := h
          obtain ⟨hstart, hend, hle⟩ := slice_bounds i ways.length waySize
          rw [List.length_cons, hend]
          cases j with
          | zero =>
              obtain rfl : rest' = x :: rest := by simpa using hj
              obtain ⟨mem', way', hget, hname, hway', hagree⟩ := hway.get
              refine ⟨way, mem', way', rfl, hget, by simp [hname], ⟨hway', ?_⟩,
                hagree.mono (Nat.le_refl _) (by omega)⟩
              exact hrest.congr hagree.size (fun j hj _ ↦ hagree.entry j (Or.inr (by omega)))
                fun _ _ ↦ rfl
          | succ j =>
              rw [List.getElem?_cons_succ] at hj
              obtain ⟨w, mem', w', hw, hget, hnames, hread, hagree⟩ := ih hrest hj
              refine ⟨w, mem', w', hw, hget, by simpa using hnames, ⟨?_, hread⟩,
                hagree.mono (by omega) (Nat.le_refl _)⟩
              exact hway.congr hagree.size (fun j _ hj ↦ hagree.entry j (Or.inl (by omega))) rfl

/-! ## The merge loop -/

/-- The loop leaves the k-way merge of what the ways had to deliver with the output way. -/
theorem mergeLoop_spec {n fuel : ℕ} (hread : ReadAll disk mem waySize 0 ways rests)
    (hwrite : out.Writes disk mem (ways.length * waySize) waySize written)
    (hother : ∀ way ∈ ways, way.filename ≠ out.fd) (hn : rests.flatten.length ≤ n)
    (hfuel : n < fuel) :
    ∃ disk' mem' ways' out', mergeLoop fuel disk mem ways out = some (disk', mem', ways', out') ∧
      ways'.map InputWay.filename = ways.map InputWay.filename ∧ out'.fd = out.fd ∧
      out'.Writes disk' mem' (ways.length * waySize) waySize
        (written ++ KWay.merge dataMinValue n rests) ∧
      mem'.size = mem.size ∧ disk'.linked = disk.linked ∧ disk'.created = disk.created ∧
      ∀ name, name ≠ out.fd → disk'.content name = disk.content name := by
  induction fuel generalizing n disk mem ways out rests written with
  | zero => cases hfuel
  | succ fuel ih =>
      obtain ⟨mem₁, ways₁, hscan, hnames₁, hread₁, hagree₁⟩ := hread.scan dataMinValue none
      have hlength₁ : ways₁.length = ways.length := by
        simpa using congrArg List.length hnames₁
      rw [Nat.zero_add] at hagree₁
      have hwrite₁ : out.Writes disk mem₁ (ways.length * waySize) waySize written :=
        hwrite.congr hagree₁.size fun j hj _ ↦ hagree₁.entry j (Or.inr hj)
      cases hmax : KWay.scan rests 0 dataMinValue none with
      | none =>
          refine ⟨disk, mem₁, ways₁, out, ?_, hnames₁, rfl, ?_, hagree₁.size, rfl, rfl,
            fun _ _ ↦ rfl⟩
          · simp only [mergeLoop, hscan, hmax, Option.bind_eq_bind, Option.bind_some]
          · cases n <;> simpa [KWay.merge, hmax] using hwrite₁
      | some k =>
          rcases KWay.scan_eq_some hmax with ⟨hnone, -⟩ | ⟨k', x, rest, hk, hrest, -, -⟩
          · cases hnone
          · rw [Nat.zero_add] at hk
            subst hk
            have hperm := KWay.flatten_perm_cons hrest
            obtain ⟨way, mem₂, way', hway, hget, hnames₂, hread₂, hagree₂⟩ := hread₁.get hrest
            rw [Nat.zero_add, Nat.zero_mul, hlength₁] at hagree₂
            have hwrite₂ : out.Writes disk mem₂ (ways.length * waySize) waySize written :=
              hwrite₁.congr hagree₂.size fun j hj _ ↦ hagree₂.entry j (Or.inr hj)
            obtain ⟨disk₃, mem₃, out₃, hput, hfd, hwrite₃, hagree₃, hlinked, hcreated, hcontent⟩ :=
              hwrite₂.put x
            have hnames : (ways₁.set k way').map InputWay.filename = ways.map InputWay.filename :=
              hnames₂.trans hnames₁
            have hlength : (ways₁.set k way').length = ways.length := by
              rw [List.length_set, hlength₁]
            have hfiles : ∀ way ∈ ways₁.set k way', way.filename ≠ out.fd := by
              intro w hw heq
              have hmem : w.filename ∈ ways.map InputWay.filename :=
                hnames ▸ List.mem_map_of_mem hw
              obtain ⟨v, hv, hname⟩ := List.mem_map.mp hmem
              exact hother v hv (hname.trans heq)
            have hread₃ : ReadAll disk₃ mem₃ waySize 0 (ways₁.set k way') (rests.set k rest) :=
              hread₂.congr hagree₃.size
                (fun j _ hj ↦ hagree₃.entry j (Or.inl (by rwa [Nat.zero_add, hlength] at hj)))
                fun w hw ↦ hcontent _ (hfiles w hw)
            have hcount : (rests.set k rest).flatten.length + 1 ≤ n := by
              rw [← List.length_cons (a := x), ← hperm.length_eq]
              exact hn
            obtain ⟨m, rfl⟩ : ∃ m, n = m + 1 := ⟨n - 1, by omega⟩
            rw [← hlength] at hwrite₃
            obtain ⟨disk', mem', ways', out', hloop, hnames', hfd', hwrite', hsize', hlinked',
              hcreated', hcontent'⟩ := ih hread₃ hwrite₃ (fun w hw ↦ hfd ▸ hfiles w hw)
                (n := m) (by omega) (by omega)
            refine ⟨disk', mem', ways', out', ?_, hnames'.trans hnames, hfd'.trans hfd, ?_, ?_,
              hlinked'.trans hlinked, hcreated'.trans hcreated, fun name hname ↦ ?_⟩
            · simp only [mergeLoop, hscan, hmax, Option.bind_eq_bind, Option.bind_some, hway, hget,
                hput, hloop]
            · rw [hlength] at hwrite'
              simpa [KWay.merge, hmax, hrest, List.append_assoc] using hwrite'
            · rw [hsize', hagree₃.size, hagree₂.size, hagree₁.size]
            · exact (hcontent' name (hfd ▸ hname)).trans (hcontent name hname)

/-! ## Opening and closing the files -/

theorem destroy_linked (disk : Disk) (way : InputWay) (name : ℕ) :
    (way.destroy disk).linked name = if name = way.filename then false else disk.linked name :=
  Function.update_apply _ _ _ _

/-- Opening the ways removes the names of their files and keeps what they hold. -/
theorem openWays_spec {inputs : List ℕ} (hpos : 0 < waySize)
    (hinside : (i + inputs.length) * waySize ≤ mem.size)
    (hlinked : ∀ name ∈ inputs, disk.linked name = true) (hnodup : inputs.Nodup) :
    ∃ disk' ways, openWays disk waySize i inputs = some (disk', ways) ∧
      ways.map InputWay.filename = inputs ∧
      ReadAll disk' mem waySize i ways (inputs.map disk.content) ∧
      disk'.content = disk.content ∧ disk'.created = disk.created ∧
      ∀ name, name ∉ inputs → disk'.linked name = disk.linked name := by
  induction inputs generalizing i disk with
  | nil => exact ⟨disk, [], rfl, rfl, trivial, rfl, rfl, fun _ _ ↦ rfl⟩
  | cons name inputs ih =>
      obtain ⟨hnotin, hnodup⟩ := List.nodup_cons.mp hnodup
      obtain ⟨hstart, hend, hle⟩ := slice_bounds i inputs.length waySize
      rw [List.length_cons, hend] at hinside
      have hslice : i * waySize + waySize ≤ mem.size := by omega
      obtain ⟨way, hnew, hname, hway⟩ :=
        InputWay.new_reads (hlinked name List.mem_cons_self) hslice hpos
      have hlinked' : ∀ n ∈ inputs, (way.move.2.destroy disk).linked n = true := by
        intro n hn
        have hne : n ≠ way.move.2.filename := by
          rintro rfl
          exact hnotin (hname ▸ hn)
        rw [destroy_linked, if_neg hne]
        exact hlinked n (List.mem_cons_of_mem name hn)
      obtain ⟨disk', ways, hopen, hnames, hread, hcontent, hcreated, hothers⟩ :=
        ih (i := i + 1) hinside hlinked' hnodup
      refine ⟨disk', way :: ways, ?_, ?_, ⟨?_, hread⟩, hcontent, hcreated, fun n hn ↦ ?_⟩
      · simp only [InputWay.move] at hopen
        simp only [openWays, hnew, Option.bind_eq_bind, Option.bind_some, InputWay.move, hopen]
      · rw [List.map_cons, hname, hnames]
      · exact hway.congr rfl (fun _ _ _ ↦ rfl) (congrFun hcontent _)
      · rw [List.mem_cons, not_or] at hn
        have hne : n ≠ way.move.2.filename := fun heq ↦ hn.1 (heq.trans hname)
        rw [hothers n hn.2, destroy_linked, if_neg hne]

/-- The destructors of the ways remove names and touch no content. -/
theorem foldl_destroy (ways : List InputWay) (disk : Disk) :
    (ways.foldl InputWay.destroy disk).content = disk.content ∧
    (ways.foldl InputWay.destroy disk).created = disk.created ∧
    ∀ name, name ∉ ways.map InputWay.filename →
      (ways.foldl InputWay.destroy disk).linked name = disk.linked name := by
  induction ways generalizing disk with
  | nil => exact ⟨rfl, rfl, fun _ _ ↦ rfl⟩
  | cons way ways ih =>
      obtain ⟨hcontent, hcreated, hlinked⟩ := ih (way.destroy disk)
      refine ⟨hcontent, hcreated, fun name hname ↦ ?_⟩
      rw [List.map_cons, List.mem_cons, not_or] at hname
      rw [List.foldl_cons, hlinked name hname.2, destroy_linked, if_neg hname.1]

/-! ## The merge of a group -/

/-- A queue of different names of files that exist. -/
structure Queued (disk : Disk) (names : List ℕ) : Prop where
  linked : ∀ name ∈ names, disk.linked name = true
  old : ∀ name ∈ names, name < disk.created
  nodup : names.Nodup

/-- A new file with the given data has come, the files of a group may have lost their names, and
nothing else has changed. -/
structure Replaced (disk disk' : Disk) (group : List ℕ) (data : List Data) : Prop where
  created : disk'.created = disk.created + 1
  linkedNew : disk'.linked disk.created = true
  contentNew : disk'.content disk.created = data
  linked : ∀ name, name ≠ disk.created → name ∉ group → disk'.linked name = disk.linked name
  content : ∀ name, name ≠ disk.created → disk'.content name = disk.content name

variable {group names : List ℕ} {data : List Data}

theorem Replaced.map_content (h : Replaced disk disk' group data)
    (hold : ∀ name ∈ names, name < disk.created) :
    names.map disk'.content = names.map disk.content := by
  apply List.map_congr_left
  intro name hname
  exact h.content name (Nat.ne_of_lt (hold name hname))

theorem Replaced.map_content_new (h : Replaced disk disk' group data)
    (hold : ∀ name ∈ names, name < disk.created) :
    (names ++ [disk.created]).map disk'.content = names.map disk.content ++ [data] := by
  rw [List.map_append, List.map_singleton, h.map_content hold, h.contentNew]

/-- The new file goes to the end of the queue that the group leaves. -/
theorem Queued.replace (hqueued : Queued disk (group ++ names))
    (h : Replaced disk disk' group data) : Queued disk' (names ++ [disk.created]) := by
  have hold : ∀ name ∈ names, name < disk.created :=
    fun name hname ↦ hqueued.old name (List.mem_append_right _ hname)
  have hnodup := List.nodup_append.mp hqueued.nodup
  have hother : ∀ name ∈ names, name ∉ group :=
    fun name hname hin ↦ hnodup.2.2 name hin name hname rfl
  exact
    { linked := fun name hname ↦ by
        rw [List.mem_append, List.mem_singleton] at hname
        cases hname with
        | inl hname =>
            rw [h.linked name (Nat.ne_of_lt (hold name hname)) (hother name hname)]
            exact hqueued.linked name (List.mem_append_right _ hname)
        | inr hname => rw [hname, h.linkedNew]
      old := fun name hname ↦ by
        rw [List.mem_append, List.mem_singleton] at hname
        rw [h.created]
        cases hname with
        | inl hname => exact Nat.lt_succ_of_lt (hold name hname)
        | inr hname => exact hname ▸ Nat.lt_succ_self _
      nodup := by
        apply List.nodup_append.mpr
        refine ⟨hnodup.2.1, by simp, fun name hname name' hname' heq ↦ ?_⟩
        rw [List.mem_singleton] at hname'
        exact Nat.ne_of_lt (hold name hname) (heq.trans hname') }

/-- Opening the ways of a group and its output way. -/
theorem openGroup_spec (hpos : 0 < waySize)
    (hinside : group.length * waySize + waySize ≤ mem.size)
    (hlinked : ∀ name ∈ group, disk.linked name = true)
    (hold : ∀ name ∈ group, name ≠ disk.created) (hnodup : group.Nodup) :
    ∃ disk₁ ways, openWays disk waySize 0 group = some (disk₁, ways) ∧
      ways.map InputWay.filename = group ∧ disk₁.created = disk.created ∧
      ReadAll (OutputWay.new disk₁ (group.length * waySize) waySize).2 mem waySize 0 ways
        (group.map disk.content) ∧
      Replaced disk (OutputWay.new disk₁ (group.length * waySize) waySize).2 group [] := by
  have hslices : (0 + group.length) * waySize ≤ mem.size := by
    rw [Nat.zero_add]
    exact Nat.le_trans (Nat.le_add_right _ _) hinside
  obtain ⟨disk₁, ways, hopen, hnames, hread, hcontent₁, hcreated₁, hlinked₁⟩ :=
    openWays_spec hpos hslices hlinked hnodup
  have hcontent : ∀ name, name ≠ disk.created →
      (OutputWay.new disk₁ (group.length * waySize) waySize).2.content name =
        disk.content name := by
    intro name hname
    rw [← hcontent₁]
    exact Function.update_of_ne (hcreated₁ ▸ hname) _ _
  refine ⟨disk₁, ways, hopen, hnames, hcreated₁, ?_, ?_⟩
  · apply hread.congr rfl (fun _ _ _ ↦ rfl)
    intro way hway
    have hgroup : way.filename ∈ group := hnames ▸ List.mem_map_of_mem hway
    rw [hcontent _ (hold _ hgroup), hcontent₁]
  · exact
      { created := congrArg (· + 1) hcreated₁
        linkedNew := by
          rw [← hcreated₁]
          exact Function.update_self _ _ _
        contentNew := by
          rw [← hcreated₁]
          exact Function.update_self _ _ _
        linked := fun name hname hnot ↦ by
          rw [← hlinked₁ name hnot]
          exact Function.update_of_ne (hcreated₁ ▸ hname) _ _
        content := hcontent }

/-- Opening, merging and closing the ways of a group replaces its files by their k-way merge. -/
theorem mergeGroup_spec {fuel : ℕ} (hpos : 0 < waySize)
    (hinside : group.length * waySize + waySize ≤ mem.size)
    (hlinked : ∀ name ∈ group, disk.linked name = true)
    (hold : ∀ name ∈ group, name ≠ disk.created) (hnodup : group.Nodup)
    (hfuel : (group.map disk.content).flatten.length < fuel) :
    ∃ disk₁ ways disk₂ mem' ways' out disk₃,
      openWays disk waySize 0 group = some (disk₁, ways) ∧
      mergeLoop fuel (OutputWay.new disk₁ (group.length * waySize) waySize).2 mem ways
        (OutputWay.new disk₁ (group.length * waySize) waySize).1 = some (disk₂, mem', ways', out) ∧
      out.destroy disk₂ mem' = some disk₃ ∧ out.fileName = disk.created ∧ mem'.size = mem.size ∧
      Replaced disk (ways'.foldl InputWay.destroy disk₃) group
        (KWay.kWay dataMinValue (group.map disk.content)) := by
  obtain ⟨disk₁, ways, hopen, hnames, hcreated₁, hread, hnew⟩ :=
    openGroup_spec hpos hinside hlinked hold hnodup
  have hlength : ways.length = group.length := by simpa using congrArg List.length hnames
  have hwrite : (OutputWay.new disk₁ (group.length * waySize) waySize).1.Writes
      (OutputWay.new disk₁ (group.length * waySize) waySize).2 mem (ways.length * waySize) waySize
      [] := by
    rw [hlength]
    exact OutputWay.new_writes disk₁ hinside hpos
  have hfd : (OutputWay.new disk₁ (group.length * waySize) waySize).1.fd = disk.created := hcreated₁
  have hother : ∀ way ∈ ways,
      way.filename ≠ (OutputWay.new disk₁ (group.length * waySize) waySize).1.fd :=
    fun way hway ↦ hfd ▸ hold _ (hnames ▸ List.mem_map_of_mem hway)
  obtain ⟨disk₂, mem', ways', out, hloop, hnames', hfd', hwrite', hsize, hlinked₂, hcreated₂,
    hcontent₂⟩ := mergeLoop_spec hread hwrite hother (Nat.le_refl _) hfuel
  rw [List.nil_append] at hwrite'
  obtain ⟨disk₃, hdestroy, hresult, hlinked₃, hcreated₃, hcontent₃⟩ := hwrite'.destroy
  obtain ⟨hcontent₄, hcreated₄, hlinked₄⟩ := foldl_destroy ways' disk₃
  rw [hnames', hnames] at hlinked₄
  rw [hfd'.trans hfd] at hresult hcontent₃
  rw [hfd] at hcontent₂
  have hnot : disk.created ∉ group := fun hin ↦ hold _ hin rfl
  refine ⟨disk₁, ways, disk₂, mem', ways', out, disk₃, hopen, hloop, hdestroy, ?_, hsize, ?_⟩
  · rw [← hwrite'.name, hfd', hfd]
  · exact
      { created := by rw [hcreated₄, hcreated₃, hcreated₂, hnew.created]
        linkedNew := by rw [hlinked₄ _ hnot, hlinked₃, hlinked₂, hnew.linkedNew]
        contentNew := by rw [hcontent₄, hresult, KWay.kWay]
        linked := fun name hname hin ↦ by
          rw [hlinked₄ name hin, hlinked₃, hlinked₂, hnew.linked name hname hin]
        content := fun name hname ↦ by
          rw [hcontent₄, hcontent₃ name hname, hcontent₂ name hname, hnew.content name hname] }

/-- The number of files that one merge takes. -/
theorem group_eq (inputs : List ℕ) :
    (if maxWays < inputs.length then maxWays else inputs.length) = min maxWays inputs.length := by
  split <;> omega

theorem Queued.front (h : Queued disk (names ++ group)) : Queued disk names where
  linked name hname := h.linked name (List.mem_append_left _ hname)
  old name hname := h.old name (List.mem_append_left _ hname)
  nodup := (List.nodup_append.mp h.nodup).1

/-- `merge` takes the first files out of one queue and puts a new one, their k-way merge, behind the
other. -/
theorem merge_replaces {fuel bufSize : ℕ} {inputs outputs : List ℕ} (hqueued : Queued disk inputs)
    (hsize : mem.size = bufSize) (hways : min maxWays inputs.length < bufSize)
    (hfuel : ((inputs.take maxWays).map disk.content).flatten.length < fuel) :
    ∃ disk' mem', merge fuel disk inputs outputs mem bufSize =
        some (disk', inputs.drop maxWays, outputs ++ [disk.created], mem') ∧ mem'.size = mem.size ∧
      Replaced disk disk' (inputs.take maxWays)
        (KWay.kWay dataMinValue ((inputs.take maxWays).map disk.content)) := by
  set group := inputs.take maxWays with hgroup
  have hk : min maxWays inputs.length = group.length := by rw [hgroup, List.length_take]
  have htake : inputs.take (min maxWays inputs.length) = group := List.take_eq_take_min.symm
  have hdrop : inputs.drop (min maxWays inputs.length) = inputs.drop maxWays := by
    rw [← List.drop_eq_drop_min]
  rw [hk] at hways
  set waySize := bufSize / (group.length + 1) with hwaySize
  have hpos : 0 < waySize := Nat.div_pos hways (Nat.succ_pos _)
  have hinside : group.length * waySize + waySize ≤ mem.size := by
    rw [hsize, ← Nat.succ_mul, Nat.mul_comm]
    exact Nat.div_mul_le_self _ _
  obtain ⟨disk₁, ways, disk₂, mem', ways', out, disk₃, hopen, hloop, hdestroy, hname, hsize',
    hreplaced⟩ := mergeGroup_spec hpos hinside
      (fun name hname ↦ hqueued.linked name (List.mem_of_mem_take hname))
      (fun name hname ↦ Nat.ne_of_lt (hqueued.old name (List.mem_of_mem_take hname)))
      (hqueued.nodup.sublist (List.take_sublist _ _)) hfuel
  refine ⟨ways'.foldl InputWay.destroy disk₃, mem', ?_, hsize', hreplaced⟩
  simp only [merge, group_eq, hk, hk ▸ htake, hk ▸ hdrop, ← hwaySize, Option.bind_eq_bind,
    hopen, Option.bind_some, hloop, hdestroy, hname]

/-- `merge` replaces the first files of one queue by a new file at the end of the other, which
holds their k-way merge. -/
theorem merge_spec {fuel bufSize : ℕ} {inputs outputs : List ℕ}
    (hqueued : Queued disk (inputs ++ outputs)) (hsize : mem.size = bufSize)
    (hways : min maxWays inputs.length < bufSize)
    (hfuel : ((inputs.take maxWays).map disk.content).flatten.length < fuel) :
    ∃ disk' mem', merge fuel disk inputs outputs mem bufSize =
        some (disk', inputs.drop maxWays, outputs ++ [disk.created], mem') ∧
      Queued disk' (inputs.drop maxWays ++ (outputs ++ [disk.created])) ∧
      (inputs.drop maxWays).map disk'.content = (inputs.drop maxWays).map disk.content ∧
      (outputs ++ [disk.created]).map disk'.content = outputs.map disk.content ++
        [KWay.kWay dataMinValue ((inputs.take maxWays).map disk.content)] ∧
      mem'.size = mem.size ∧ disk'.created = disk.created + 1 := by
  obtain ⟨disk', mem', hmerge, hsize', hreplaced⟩ := merge_replaces hqueued.front hsize hways hfuel
  have hsplit : inputs ++ outputs = inputs.take maxWays ++ (inputs.drop maxWays ++ outputs) := by
    rw [← List.append_assoc, List.take_append_drop]
  rw [hsplit] at hqueued
  have hold : ∀ name ∈ inputs.drop maxWays ++ outputs, name < disk.created :=
    fun name hname ↦ hqueued.old name (List.mem_append_right _ hname)
  refine ⟨disk', mem', hmerge, ?_, ?_, ?_, hsize', hreplaced.created⟩
  · rw [← List.append_assoc]
    exact hqueued.replace hreplaced
  · exact hreplaced.map_content fun name hname ↦ hold name (List.mem_append_left _ hname)
  · exact hreplaced.map_content_new fun name hname ↦ hold name (List.mem_append_right _ hname)

end CppMtHw.ExternalSort
