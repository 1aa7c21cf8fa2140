import AndroidBuild.Aconfig.StorageCreate

/-!
# The chains of the buckets

The nodes of a table are written in the order of their buckets.  A bucket
holds the offset of its first node, and each node the offset of the next node
of the bucket, so from its bucket on all nodes with a given hash are linked.
-/

namespace AndroidBuild
namespace Aconfig

section Linked

variable {ν : Type}

/-- The bytes `l` stand in the file at the offset. -/
def Stands (buf : List UInt8) (offset : Nat) (l : List UInt8) : Prop :=
  ∃ before after, buf = before ++ (l ++ after) ∧ before.length = offset

theorem Stands.le
    {buf l : List UInt8} {offset : Nat} (h : Stands buf offset l) :
    offset + l.length ≤ buf.length := by
  obtain ⟨before, after, rfl, rfl⟩ := h
  simp only [List.length_append]
  omega

/-- The nodes stand in the file and are linked from the offset on. -/
inductive Linked (next : ν → Option UInt32) (encode : ν → List UInt8) (buf : List UInt8) :
    UInt32 → List ν → Prop
  | last {offset : UInt32} {node : ν} (hstands : Stands buf offset.toNat (encode node))
      (hnext : next node = none) : Linked next encode buf offset [node]
  | cons {offset offset' : UInt32} {node : ν} {nodes : List ν}
      (hstands : Stands buf offset.toNat (encode node)) (hnext : next node = some offset')
      (hrest : Linked next encode buf offset' nodes) :
      Linked next encode buf offset (node :: nodes)

end Linked

section FillOffsets

variable {ν : Type} {next : ν → Option UInt32} {bucketOf : ν → Nat} {encode : ν → List UInt8}
  {setNext : ν → UInt32 → ν}

/-- How a node is linked to the next one. -/
structure Linking (next : ν → Option UInt32) (bucketOf : ν → Nat) (encode : ν → List UInt8)
    (setNext : ν → UInt32 → ν) : Prop where
  next : ∀ node x, next (setNext node x) = some x
  bucketOf : ∀ node x, bucketOf (setNext node x) = bucketOf node
  length : ∀ node x, (encode (setNext node x)).length = (encode node).length
  pos : ∀ node, 0 < (encode node).length

variable (hlinking : Linking next bucketOf encode setNext)

include hlinking

/-- What the loop does with the first node. -/
theorem fillOffsets_cons
    {node : ν} {bucket : Nat} {ws : List (ν × Nat)} {buckets buckets' : List (Option UInt32)}
    {offset : UInt32} {nodes : List ν} (hsize : (encode node).length < 2 ^ 32)
    (hrun : fillOffsets (fun node => (encode node).length) setNext ((node, bucket) :: ws) buckets
      offset = .ok (nodes, buckets')) :
    ∃ filled offset' node' rest, fillBucket buckets bucket offset = .ok filled ∧
      offset'.toNat = offset.toNat + (encode node').length ∧
      node' = (if ws.head?.map Prod.snd = some bucket then setNext node offset' else node) ∧
      nodes = node' :: rest ∧
      fillOffsets (fun node => (encode node).length) setNext ws filled offset' =
        .ok (rest, buckets') := by
  rw [fillOffsets] at hrun
  obtain ⟨filled, hfilled, hrun⟩ := Loop.bind_eq_ok.mp hrun
  obtain ⟨offset', hadd, hrun⟩ := Loop.bind_eq_ok.mp hrun
  obtain ⟨⟨rest, last⟩, hrest, hrun⟩ := Loop.bind_eq_ok.mp hrun
  cases hrun
  have hsum := Checked.add_eq_ok.mp hadd
  rw [UInt32.toNat_ofNat_of_lt' hsize] at hsum
  refine ⟨filled, offset', _, rest, hfilled, ?_, rfl, rfl, hrest⟩
  split
  · rw [hlinking.length, hsum]
  · exact hsum

/-- The first nodes are those of the first bucket, and they are linked. -/
theorem fillOffsets_linked
    {node : ν} {bucket : Nat} {ws : List (ν × Nat)} {buckets buckets' : List (Option UInt32)}
    {offset : UInt32} {nodes : List ν} {buf before after : List UInt8}
    (hrun : fillOffsets (fun node => (encode node).length) setNext ((node, bucket) :: ws) buckets
      offset = .ok (nodes, buckets'))
    (hbuf : buf = before ++ (nodes.flatMap encode ++ after)) (hbefore : before.length = offset.toNat)
    (hws : ∀ w ∈ (node, bucket) :: ws,
      next w.1 = none ∧ bucketOf w.1 = w.2 ∧ (encode w.1).length < 2 ^ 32)
    (hsorted : ((node, bucket) :: ws).Pairwise (fun a b => a.2 ≤ b.2)) :
    Linked next encode buf offset (nodes.filter (fun n => bucketOf n = bucket)) := by
  induction ws generalizing node bucket buckets offset nodes before with
  | nil =>
      obtain ⟨hnone, hbucket, hsize⟩ := hws (node, bucket) (by simp)
      obtain ⟨filled, offset', node', rest, _, _, rfl, rfl, hrest⟩ :=
        fillOffsets_cons hlinking hsize hrun
      cases hrest
      simp only [List.filter_cons, hbucket, decide_true, if_true, List.filter_nil]
      refine .last ⟨before, after, ?_, hbefore⟩ hnone
      simpa using hbuf
  | cons w ws ih =>
      obtain ⟨node₂, bucket₂⟩ := w
      rw [List.forall_mem_cons] at hws
      obtain ⟨⟨hnone, hbucket, hsize⟩, hws⟩ := hws
      rw [List.pairwise_cons] at hsorted
      obtain ⟨filled, offset', node', rest, _, hoffset, hnode', rfl, hrest⟩ :=
        fillOffsets_cons hlinking hsize hrun
      have hfirst : Stands buf offset.toNat (encode node') := by
        refine ⟨before, rest.flatMap encode ++ after, ?_, hbefore⟩
        rw [hbuf, List.flatMap_cons, List.append_assoc]
      have hbucket' : bucketOf node' = bucket := by
        rw [hnode']
        split
        · rw [hlinking.bucketOf, hbucket]
        · exact hbucket
      rw [List.filter_cons, if_pos (by simpa using hbucket')]
      by_cases hsame : bucket₂ = bucket
      · subst hsame
        have hnext : next node' = some offset' := by
          rw [hnode', if_pos (by rfl), hlinking.next]
        have hbuf' : buf = (before ++ encode node') ++ (rest.flatMap encode ++ after) := by
          rw [hbuf, List.flatMap_cons, List.append_assoc, List.append_assoc]
        refine .cons hfirst hnext (ih hrest hbuf' ?_ hws hsorted.2)
        rw [List.length_append, hbefore, hoffset]
      · have hnode : node' = node := by
          rw [hnode', if_neg (by simpa using hsame)]
        -- the buckets go up, so no node of this one comes later
        have hlater : ∀ n ∈ rest, ¬ bucketOf n = bucket := by
          intro n hn
          have hmap := fillOffsets_map bucketOf hlinking.bucketOf hrest
          have hmem := List.mem_map_of_mem (f := bucketOf) hn
          rw [hmap] at hmem
          obtain ⟨w, hw, hwn⟩ := List.mem_map.mp hmem
          have hfirst : bucket ≤ bucket₂ := hsorted.1 (node₂, bucket₂) (by simp)
          have hrest : bucket₂ ≤ w.2 := by
            rcases List.mem_cons.mp hw with rfl | hw
            · exact le_refl _
            · exact (List.pairwise_cons.mp hsorted.2).1 w hw
          rw [← hwn, (hws w hw).2.1]
          omega
        have hnil : rest.filter (fun n => bucketOf n = bucket) = [] :=
          List.filter_eq_nil_iff.mpr (by simpa using hlater)
        rw [hnil]
        refine .last hfirst ?_
        rw [hnode]
        exact hnone

omit hlinking in
/-- A bucket that is set stays as it is. -/
theorem fillBucket_some
    {buckets filled : List (Option UInt32)} {bucket b : Nat} {offset o : UInt32}
    (h : fillBucket buckets bucket offset = .ok filled) (hb : buckets[b]? = some (some o)) :
    filled[b]? = some (some o) := by
  rw [fillBucket] at h
  split at h
  · cases h
  · rename_i hnone
    cases h
    have hne : bucket ≠ b := by
      rintro rfl
      rw [hb] at hnone
      cases hnone
    rw [List.getElem?_set_ne hne, hb]
  · cases h
    exact hb

theorem fillOffsets_some
    {ws : List (ν × Nat)} {buckets buckets' : List (Option UInt32)} {offset : UInt32}
    {nodes : List ν} {b : Nat} {o : UInt32}
    (hrun : fillOffsets (fun node => (encode node).length) setNext ws buckets offset =
      .ok (nodes, buckets'))
    (hws : ∀ w ∈ ws, (encode w.1).length < 2 ^ 32) (hb : buckets[b]? = some (some o)) :
    buckets'[b]? = some (some o) := by
  induction ws generalizing buckets offset nodes with
  | nil =>
      cases hrun
      exact hb
  | cons w ws ih =>
      rw [List.forall_mem_cons] at hws
      obtain ⟨filled, offset', node', rest, hfilled, _, _, _, hrest⟩ :=
        fillOffsets_cons hlinking hws.1 hrun
      exact ih hrest hws.2 (fillBucket_some hfilled hb)

theorem fillOffsets_bucket
    {ws : List (ν × Nat)} {buckets buckets' : List (Option UInt32)}
    {offset : UInt32} {nodes : List ν} {buf before after : List UInt8} {b : Nat}
    (hrun : fillOffsets (fun node => (encode node).length) setNext ws buckets offset =
      .ok (nodes, buckets'))
    (hbuf : buf = before ++ (nodes.flatMap encode ++ after)) (hbefore : before.length = offset.toNat)
    (hws : ∀ w ∈ ws, next w.1 = none ∧ bucketOf w.1 = w.2 ∧ (encode w.1).length < 2 ^ 32)
    (hsorted : ws.Pairwise (fun a b => a.2 ≤ b.2)) (hb : buckets[b]? = some none) :
    (buckets'[b]? = some none ∧ nodes.filter (fun n => bucketOf n = b) = []) ∨
      ∃ o, buckets'[b]? = some (some o) ∧ offset ≤ o ∧
        Linked next encode buf o (nodes.filter (fun n => bucketOf n = b)) := by
  induction ws generalizing buckets offset nodes before with
  | nil =>
      cases hrun
      exact .inl ⟨hb, rfl⟩
  | cons w ws ih =>
      obtain ⟨node, bucket⟩ := w
      have hall := hws
      rw [List.forall_mem_cons] at hws
      obtain ⟨filled, offset', node', rest, hfilled, hoffset, hnode', rfl, hrest⟩ :=
        fillOffsets_cons hlinking hws.1.2.2 hrun
      by_cases hbucket : bucket = b
      · subst hbucket
        rw [fillBucket, hb] at hfilled
        cases hfilled
        refine .inr ⟨offset, ?_, UInt32.le_refl _,
          fillOffsets_linked hlinking hrun hbuf hbefore hall hsorted⟩
        have hlt := (List.getElem?_eq_some_iff.mp hb).1
        exact fillOffsets_some hlinking hrest (fun w hw => (hws.2 w hw).2.2)
          (List.getElem?_set_self hlt)
      · have hfilled' : filled[b]? = some none := by
          rw [fillBucket] at hfilled
          split at hfilled
          · cases hfilled
          · cases hfilled
            rw [List.getElem?_set_ne hbucket, hb]
          · cases hfilled
            exact hb
        have hother : ¬ bucketOf node' = b := by
          rw [hnode']
          split
          · rw [hlinking.bucketOf, hws.1.2.1]
            exact hbucket
          · rw [hws.1.2.1]
            exact hbucket
        have hle : offset ≤ offset' := by
          rw [UInt32.le_iff_toNat_le]
          omega
        rw [List.filter_cons, if_neg (by simpa using hother)]
        have hbuf' : buf = (before ++ encode node') ++ (rest.flatMap encode ++ after) := by
          rw [hbuf, List.flatMap_cons, List.append_assoc, List.append_assoc]
        have hbefore' : (before ++ encode node').length = offset'.toNat := by
          rw [List.length_append, hbefore, hoffset]
        rcases ih hrest hbuf' hbefore' hws.2 (List.pairwise_cons.mp hsorted).2 hfilled' with
          h | ⟨o, ho, hoffset, hlinked⟩
        · exact .inl h
        · exact .inr ⟨o, ho, UInt32.le_trans hle hoffset, hlinked⟩

/-- No node is linked to the offset zero. -/
theorem fillOffsets_next
    {ws : List (ν × Nat)} {buckets buckets' : List (Option UInt32)} {offset : UInt32}
    {nodes : List ν}
    (hrun : fillOffsets (fun node => (encode node).length) setNext ws buckets offset =
      .ok (nodes, buckets'))
    (hws : ∀ w ∈ ws, next w.1 = none ∧ (encode w.1).length < 2 ^ 32) :
    ∀ node ∈ nodes, next node ≠ some 0 := by
  induction ws generalizing buckets offset nodes with
  | nil =>
      cases hrun
      simp
  | cons w ws ih =>
      rw [List.forall_mem_cons] at hws
      obtain ⟨filled, offset', node', rest, _, hoffset, hnode', rfl, hrest⟩ :=
        fillOffsets_cons hlinking hws.1.2 hrun
      rw [List.forall_mem_cons]
      refine ⟨?_, ih hrest hws.2⟩
      have hpos := hlinking.pos node'
      split at hnode'
      · rw [hnode', hlinking.next, ne_eq, Option.some.injEq]
        rintro rfl
        rw [UInt32.toNat_zero] at hoffset
        omega
      · rw [hnode', hws.1.1]
        exact nofun

end FillOffsets

section Tables

variable {ν : Type}

/-- From its bucket on, the nodes of a bucket are linked. -/
def Table.Chained (nodeBytes : UInt32 → ν → List UInt8) (next : ν → Option UInt32)
    (bucketOf : ν → Nat) (t : Table ν) : Prop :=
  ∀ b < t.buckets.length,
    (t.buckets[b]? = some none ∧ t.nodes.filter (fun n => bucketOf n = b) = []) ∨
    ∃ o, t.buckets[b]? = some (some o) ∧ t.header.nodeOffset ≤ o ∧
      Linked next (nodeBytes t.header.version) (t.intoBytes nodeBytes) o
        (t.nodes.filter (fun n => bucketOf n = b))

theorem Table.length_nodeBytes_le
    (nodeBytes : UInt32 → ν → List UInt8) {t : Table ν} {node : ν} (hnode : node ∈ t.nodes) :
    (nodeBytes t.header.version node).length ≤ (t.intoBytes nodeBytes).length := by
  have hle := List.single_le_sum (l := t.nodes.map (fun n => (nodeBytes t.header.version n).length))
    (by simp) _ (List.mem_map_of_mem hnode)
  rw [Table.intoBytes, List.length_append, List.length_append, List.length_flatMap]
  omega

variable {type : StorageFileType} {container : String} {version count numBuckets : UInt32}
  {nodeBytes : UInt32 → ν → List UInt8} {setNext : ν → UInt32 → ν} {next : ν → Option UInt32}
  {bucketOf : ν → Nat} {wrappers : List (ν × Nat)} {t : Table ν}

/-- A table that is smaller than 4 GB is laid out as its header says. -/
theorem createTable_laid_of_lt
    (hlinking : Linking next bucketOf (nodeBytes version) setNext)
    (hrun : createTable type container version count numBuckets (nodeBytes version) setNext
      wrappers = .ok t)
    (hlt : (t.intoBytes nodeBytes).length < 2 ^ 32) :
    t.Laid nodeBytes := by
  refine createTable_laid nodeBytes hlinking.length hrun ?_ ?_
  · rw [Table.intoBytes, List.length_append] at hlt
    omega
  · intro node hnode
    exact lt_of_le_of_lt (Table.length_nodeBytes_le nodeBytes hnode) hlt

theorem createTable_eq_ok
    (hrun : createTable type container version count numBuckets (nodeBytes version) setNext
      wrappers = .ok t) :
    t.header.version = version ∧ t.header.container = container ∧
      t.header.fileType = type.toU8 ∧ t.header.count = count ∧
      fillOffsets (fun node => (nodeBytes version node).length) setNext
        (wrappers.insertionSort (fun a b => a.2 ≤ b.2)) (List.replicate numBuckets.toNat none)
        t.header.nodeOffset = .ok (t.nodes, t.buckets) := by
  obtain ⟨bucketSize, hmul, hrun⟩ := Loop.bind_eq_ok.mp hrun
  obtain ⟨nodeOffset, hnode, hrun⟩ := Loop.bind_eq_ok.mp hrun
  obtain ⟨fileSize, hfile, hrun⟩ := Loop.bind_eq_ok.mp hrun
  obtain ⟨⟨nodes, buckets⟩, hfill, hrun⟩ := Loop.bind_eq_ok.mp hrun
  cases hrun
  exact ⟨rfl, rfl, rfl, rfl, hfill⟩

/-- The chains of a table that was built from nodes in their buckets. -/
theorem createTable_chained
    (hlinking : Linking next bucketOf (nodeBytes version) setNext)
    (hrun : createTable type container version count numBuckets (nodeBytes version) setNext
      wrappers = .ok t)
    (hlt : (t.intoBytes nodeBytes).length < 2 ^ 32)
    (hws : ∀ w ∈ wrappers, next w.1 = none ∧ bucketOf w.1 = w.2) :
    t.buckets.length = numBuckets.toNat ∧ t.Chained nodeBytes next bucketOf ∧
      (∀ node ∈ t.nodes, next node ≠ some 0) ∧ some 0 ∉ t.buckets := by
  have hlaid := createTable_laid_of_lt hlinking hrun hlt
  obtain ⟨rfl, _, _, _, hfill⟩ := createTable_eq_ok hrun
  have hmap := fillOffsets_map (fun node => (nodeBytes t.header.version node).length)
    hlinking.length hfill
  have hsorted : ∀ w ∈ wrappers.insertionSort (fun a b => a.2 ≤ b.2),
      next w.1 = none ∧ bucketOf w.1 = w.2 ∧
        (nodeBytes t.header.version w.1).length < 2 ^ 32 := by
    intro w hw
    obtain ⟨hnext, hbucket⟩ := hws w ((List.mem_insertionSort _).mp hw)
    refine ⟨hnext, hbucket, ?_⟩
    have hmem := List.mem_map_of_mem
      (f := fun w : ν × Nat => (nodeBytes t.header.version w.1).length) hw
    rw [← hmap] at hmem
    obtain ⟨node, hnode, hlength⟩ := List.mem_map.mp hmem
    rw [← hlength]
    exact lt_of_le_of_lt (Table.length_nodeBytes_le nodeBytes hnode) hlt
  have hlength := (fillOffsets_spec hfill (fun w hw => (hsorted w hw).2.2)).1
  rw [List.length_replicate] at hlength
  have hbuf : t.intoBytes nodeBytes = (t.header.intoBytes ++ bucketBytes t.buckets) ++
      (t.nodes.flatMap (nodeBytes t.header.version) ++ []) := by
    rw [List.append_nil, List.append_assoc]
    rfl
  have hchained : t.Chained nodeBytes next bucketOf := by
    intro b hb
    refine fillOffsets_bucket hlinking hfill hbuf ?_ hsorted (List.pairwise_insertionSort _ _) ?_
    · rw [List.length_append, hlaid.nodeOffset, hlaid.bucketOffset]
    · rw [List.getElem?_replicate, if_pos (hlength ▸ hb)]
  refine ⟨hlength, hchained, ?_, ?_⟩
  · exact fillOffsets_next hlinking hfill (fun w hw => ⟨(hsorted w hw).1, (hsorted w hw).2.2⟩)
  · intro hzero
    obtain ⟨b, hb⟩ := List.mem_iff_getElem?.mp hzero
    have hpos : 0 < t.header.nodeOffset.toNat := by
      rw [hlaid.nodeOffset, hlaid.bucketOffset, length_tableHeader_intoBytes]
      omega
    rcases hchained b (List.getElem?_eq_some_iff.mp hb).1 with ⟨hnone, _⟩ | ⟨o, ho, hle, _⟩
    · rw [hb] at hnone
      cases hnone
    · rw [hb] at ho
      cases ho
      rw [UInt32.le_iff_toNat_le, UInt32.toNat_zero] at hle
      omega

end Tables

end Aconfig
end AndroidBuild
