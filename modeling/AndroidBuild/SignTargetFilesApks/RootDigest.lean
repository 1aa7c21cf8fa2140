import AndroidBuild.SignTargetFilesApks.AvbPrinting
import AndroidBuild.SignTargetFilesApks.HashtreeFooter

/-!
# The root digest after re-signing

`ReplaceKeyInAvbHashtreeFooter` returns for every second output that can be
parsed, whatever digest it has, once the first output has what the command
needs.
-/

namespace AndroidBuild
namespace SignTargetFilesApks

open Text

section Descriptors

/-- The descriptors have exactly one hashtree descriptor. -/
def OneHashtreeDescriptor (info d : Info) : Prop :=
  ∃ items x, info.field? "Descriptors".toList = some (.list items) ∧
    items.filter (Info.hasKey "Hashtree descriptor".toList) = [x] ∧
      x.field? "Hashtree descriptor".toList = some d

theorem OneHashtreeDescriptor.unique
    {info d d' : Info} (h : OneHashtreeDescriptor info d) (h' : OneHashtreeDescriptor info d') :
    d = d' := by
  obtain ⟨items, x, hitems, hfilter, hd⟩ := h
  obtain ⟨items', x', hitems', hfilter', hd'⟩ := h'
  rw [hitems] at hitems'
  cases hitems'
  rw [hfilter] at hfilter'
  cases hfilter'
  rw [hd] at hd'
  exact Option.some.inj hd'

theorem get_eq_ok
    {key : Str} {i : Info} {v : Option Info} (h : i.get key = .ok v) :
    i.field? key = v := by
  cases i with
  | dict entries => exact Except.ok.inj h
  | text s => cases h
  | list items => cases h

theorem get_of_field?
    {key : Str} {i v : Info} (h : i.field? key = some v) (key' : Str) :
    i.get key' = .ok (i.field? key') := by
  cases i with
  | dict entries => rfl
  | text s => cases h
  | list items => cases h

theorem index_eq_ok_iff
    {key : Str} {i v : Info} :
    i.index key = .ok v ↔ i.field? key = some v := by
  cases i with
  | text s => exact iff_of_false (fun h => by cases h) (fun h => by cases h)
  | list items => exact iff_of_false (fun h => by cases h) (fun h => by cases h)
  | dict entries =>
      rw [Info.index, Info.field?]
      cases entries.lookup key <;> simp

/-- Only the items of a list can be dictionaries. -/
theorem eq_list_of_iterItems
    {value : Option Info} {items : List Info} (hiter : iterItems value = .ok items) {x v : Info}
    (hx : x ∈ items) {key : Str} (hv : x.field? key = some v) :
    value = some (.list items) := by
  match value, hiter with
  | some (.list l), hiter =>
      cases hiter
      rfl
  | some (.text s), hiter =>
      cases hiter
      obtain ⟨c, _, rfl⟩ := List.mem_map.mp hx
      cases hv
  | some (.dict entries), hiter =>
      cases hiter
      obtain ⟨e, _, rfl⟩ := List.mem_map.mp hx
      cases hv

/-- The helper gives the one descriptor of its first argument. -/
theorem getAvbHashtreeDescriptor_eq_ok_iff
    {info avb_info d : Info} :
    getAvbHashtreeDescriptor info avb_info = .ok d ↔ OneHashtreeDescriptor info d := by
  rw [getAvbHashtreeDescriptor, Loop.bind_eq_ok]
  constructor
  · rintro ⟨descriptors, hget, hrest⟩
    obtain ⟨items, hiter, hmatch⟩ := Loop.bind_eq_ok.mp hrest
    split at hmatch
    · rename_i x hfilter
      rw [index_eq_ok_iff] at hmatch
      have hx : x ∈ items := by
        refine List.mem_of_mem_filter (p := Info.hasKey "Hashtree descriptor".toList) ?_
        rw [hfilter]
        exact List.mem_singleton_self x
      have hlist := eq_list_of_iterItems hiter hx hmatch
      exact ⟨items, x, (get_eq_ok hget).trans hlist, hfilter, hmatch⟩
    · cases hmatch
  · rintro ⟨items, x, hfield, hfilter, hd⟩
    refine ⟨_, get_of_field? hfield _, Loop.bind_eq_ok.mpr ⟨items, by rw [hfield, iterItems], ?_⟩⟩
    rw [hfilter]
    exact index_eq_ok_iff.mpr hd

end Descriptors

section Values

/-- What the command takes from the first output. -/
structure FooterValues where
  partitionName : Str
  imageSize : Str
  hashAlgorithm : Str
  salt : Str
  props : List (Str × Str)

/-- The values stand in the information and in its hashtree descriptor. -/
structure HasValues (info d : Info) (v : FooterValues) : Prop where
  partitionName : d.field? "Partition Name".toList = some (.text v.partitionName)
  imageSize : info.field? "Image size".toList = some (.text v.imageSize)
  hashAlgorithm : d.field? "Hash Algorithm".toList = some (.text v.hashAlgorithm)
  salt : d.field? "Salt".toList = some (.text v.salt)
  props : ∃ items, info.field? "Descriptors".toList = some (.list items) ∧
    List.Forall₂ (fun x p => x.field? "Prop".toList = some (.dict [(p.1, .text p.2)]))
      (items.filter (Info.hasKey "Prop".toList)) v.props

def footerArguments (avbtool new_key new_algorithm image : Str) (v : FooterValues) : List Str :=
  [avbtool, "add_hashtree_footer".toList, "--key".toList, new_key,
    "--algorithm".toList, new_algorithm, "--partition_name".toList, v.partitionName,
    "--partition_size".toList, removeSuffix " bytes".toList v.imageSize,
    "--hash_algorithm".toList, v.hashAlgorithm, "--salt".toList, v.salt,
    "--do_not_generate_fec".toList, "--image".toList, image] ++
      v.props.flatMap fun p => ["--prop".toList, p.1 ++ ':' :: p.2]

theorem propArguments_eq_ok_iff
    {x : Info} {args : List Str} :
    propArguments x = .ok args ↔ ∃ p : Str × Str,
      x.field? "Prop".toList = some (.dict [(p.1, .text p.2)]) ∧
        args = ["--prop".toList, p.1 ++ ':' :: p.2] := by
  rw [propArguments, Loop.bind_eq_ok]
  constructor
  · rintro ⟨prop, hget, hmatch⟩
    have hfield := get_eq_ok hget
    split at hmatch
    · rename_i key value
      exact ⟨(key, value), hfield, (Except.ok.inj hmatch).symm⟩
    · cases hmatch
    · cases hmatch
    · cases hmatch
  · rintro ⟨p, hfield, rfl⟩
    exact ⟨_, get_of_field? hfield _, by rw [hfield]⟩

theorem commandText_eq_ok_iff
    {v : Option Info} {s : Str} :
    commandText v = .ok s ↔ v = some (.text s) := by
  rw [commandText.eq_def]
  split <;> simp_all

theorem mapM_propArguments_iff
    {items : List Info} {argss : List (List Str)} :
    items.mapM propArguments = .ok argss ↔ ∃ props : List (Str × Str),
      List.Forall₂ (fun x p => x.field? "Prop".toList = some (.dict [(p.1, .text p.2)]))
          items props ∧
        argss = props.map fun p => ["--prop".toList, p.1 ++ ':' :: p.2] := by
  rw [Loop.mapM_eq_ok]
  constructor
  · intro h
    induction h with
    | nil => exact ⟨[], .nil, rfl⟩
    | cons hx _ ih =>
        obtain ⟨p, hp, rfl⟩ := propArguments_eq_ok_iff.mp hx
        obtain ⟨props, hprops, rfl⟩ := ih
        exact ⟨p :: props, .cons hp hprops, rfl⟩
  · rintro ⟨props, hprops, rfl⟩
    rw [List.forall₂_map_right_iff]
    exact hprops.imp fun x p hp => propArguments_eq_ok_iff.mpr ⟨p, hp, rfl⟩

theorem sizeText_eq_ok_iff
    {v : Option Info} {size : Str} :
    sizeText v = .ok size ↔
      ∃ s, v = some (.text s) ∧ size = removeSuffix " bytes".toList s := by
  rw [sizeText.eq_def]
  split <;> simp_all [eq_comm]

/-- The command is collected exactly when there are values for it. -/
theorem footerCommand_eq_ok_iff
    {avbtool new_key new_algorithm image : Str} {info d : Info} {items : List Info}
    (hitems : info.field? "Descriptors".toList = some (.list items)) {cmd : List Str} :
    footerCommand avbtool new_key new_algorithm image info d = .ok cmd ↔
      ∃ v, HasValues info d v ∧
        cmd = footerArguments avbtool new_key new_algorithm image v := by
  constructor
  · intro h
    rw [footerCommand] at h
    obtain ⟨name, hname, h⟩ := Loop.bind_eq_ok.mp h
    obtain ⟨size, hsize, h⟩ := Loop.bind_eq_ok.mp h
    obtain ⟨partitionSize, hpartitionSize, h⟩ := Loop.bind_eq_ok.mp h
    obtain ⟨algorithm, halgorithm, h⟩ := Loop.bind_eq_ok.mp h
    obtain ⟨salt, hsalt, h⟩ := Loop.bind_eq_ok.mp h
    obtain ⟨descriptors, hdescriptors, h⟩ := Loop.bind_eq_ok.mp h
    obtain ⟨items', hitems', h⟩ := Loop.bind_eq_ok.mp h
    obtain ⟨argss, hargss, h⟩ := Loop.bind_eq_ok.mp h
    obtain ⟨nameText, hnameText, h⟩ := Loop.bind_eq_ok.mp h
    obtain ⟨algorithmText, halgorithmText, h⟩ := Loop.bind_eq_ok.mp h
    obtain ⟨saltText, hsaltText, h⟩ := Loop.bind_eq_ok.mp h
    rw [commandText_eq_ok_iff] at hnameText halgorithmText hsaltText
    obtain ⟨sizeValue, hsizeValue, rfl⟩ := sizeText_eq_ok_iff.mp hpartitionSize
    obtain ⟨props, hprops, rfl⟩ := mapM_propArguments_iff.mp hargss
    obtain rfl : items' = items := by
      rw [← get_eq_ok hdescriptors, hitems] at hitems'
      exact (Except.ok.inj hitems').symm
    refine ⟨⟨nameText, sizeValue, algorithmText, saltText, props⟩, ?_, ?_⟩
    · exact ⟨(get_eq_ok hname).trans hnameText, (get_eq_ok hsize).trans hsizeValue,
        (get_eq_ok halgorithm).trans halgorithmText, (get_eq_ok hsalt).trans hsaltText,
        items', hitems, hprops⟩
    · rw [← Except.ok.inj h, footerArguments, List.flatMap_def]
  · rintro ⟨v, hv, rfl⟩
    obtain ⟨items', hitems', hprops⟩ := hv.props
    rw [hitems] at hitems'
    cases hitems'
    have hd := fun key => get_of_field? hv.partitionName key
    have hinfo := fun key => get_of_field? hitems key
    rw [footerCommand, hd, hd, hd, hinfo, hinfo, hv.partitionName, hv.hashAlgorithm, hv.salt,
      hv.imageSize, hitems]
    refine Loop.bind_eq_ok.mpr ⟨_, rfl, Loop.bind_eq_ok.mpr ⟨_, rfl, Loop.bind_eq_ok.mpr
      ⟨_, rfl, Loop.bind_eq_ok.mpr ⟨_, rfl, Loop.bind_eq_ok.mpr ⟨_, rfl, Loop.bind_eq_ok.mpr
      ⟨_, rfl, Loop.bind_eq_ok.mpr ⟨_, rfl, Loop.bind_eq_ok.mpr
      ⟨_, mapM_propArguments_iff.mpr ⟨v.props, hprops, rfl⟩, ?_⟩⟩⟩⟩⟩⟩⟩⟩
    rw [footerArguments, List.flatMap_def]
    rfl

end Values

section ReplaceKey

variable (tool : Avbtool) (image new_key new_algorithm : Str) (misc_info : OrderedDict Str Str)

def infoCommand (avbtool : Str) : List Str :=
  [avbtool, "info_image".toList, "--image".toList, image]

/-- What `avbtool` says about the image before. -/
def IsFirstInfo (avbtool : Str) (info : Info) : Prop :=
  misc_info.get? "avb_avbtool".toList = some avbtool ∧
    ∃ raw, tool.before (infoCommand image avbtool) = .ok raw ∧ parseAvbInfo raw = .ok info

/-- The first output has one hashtree descriptor and everything that the command needs, and the
command succeeds. -/
def Resigns : Prop :=
  ∃ avbtool info d v out, IsFirstInfo tool image misc_info avbtool info ∧
    OneHashtreeDescriptor info d ∧ HasValues info d v ∧
      tool.addHashtreeFooter (footerArguments avbtool new_key new_algorithm image v) = .ok out

/-- Both outputs have one hashtree descriptor, with the same root digest. -/
def DigestKept (after : Str) : Prop :=
  ∃ avbtool info new_info d d', IsFirstInfo tool image misc_info avbtool info ∧
    parseAvbInfo after = .ok new_info ∧ OneHashtreeDescriptor info d ∧
      OneHashtreeDescriptor new_info d' ∧
        d.field? "Root Digest".toList = d'.field? "Root Digest".toList

def Avbtool.withAfter (after : Str) : Avbtool :=
  { tool with after := fun _ => .ok after }

/-- The function returns whenever the second output can be parsed. -/
theorem replaceKey_eq_ok_iff
    (after : Str) :
    replaceKeyInAvbHashtreeFooter (tool.withAfter after) image new_key new_algorithm misc_info =
        .ok () ↔
      Resigns tool image new_key new_algorithm misc_info ∧
        ∃ new_info, parseAvbInfo after = .ok new_info := by
  have htool : ∀ avbtool, avbAvbtool misc_info = .ok avbtool ↔
      misc_info.get? "avb_avbtool".toList = some avbtool := by
    intro avbtool
    rw [avbAvbtool]
    cases misc_info.get? "avb_avbtool".toList <;> simp
  constructor
  · intro h
    rw [replaceKeyInAvbHashtreeFooter] at h
    obtain ⟨avbtool, havbtool, h⟩ := Loop.bind_eq_ok.mp h
    obtain ⟨info, hinfo, h⟩ := Loop.bind_eq_ok.mp h
    obtain ⟨d, hd, h⟩ := Loop.bind_eq_ok.mp h
    obtain ⟨cmd, hcmd, h⟩ := Loop.bind_eq_ok.mp h
    obtain ⟨out, hout, h⟩ := Loop.bind_eq_ok.mp h
    obtain ⟨new_info, hnew, h⟩ := Loop.bind_eq_ok.mp h
    obtain ⟨raw, hraw, hparse⟩ := Loop.bind_eq_ok.mp hinfo
    obtain ⟨raw', hraw', hparse'⟩ := Loop.bind_eq_ok.mp hnew
    cases hraw'
    rw [getAvbHashtreeDescriptor_eq_ok_iff] at hd
    obtain ⟨items, x, hitems, hrest⟩ := hd
    obtain ⟨v, hv, rfl⟩ := (footerCommand_eq_ok_iff hitems).mp hcmd
    exact ⟨⟨avbtool, info, d, v, out, ⟨(htool _).mp havbtool, raw, hraw, hparse⟩,
      ⟨items, x, hitems, hrest⟩, hv, hout⟩, new_info, hparse'⟩
  · rintro ⟨⟨avbtool, info, d, v, out, ⟨havbtool, raw, hraw, hparse⟩, hd, hv, hout⟩, new_info,
      hnew⟩
    have hdescriptor : ∀ i, getAvbHashtreeDescriptor info i = .ok d := fun i =>
      getAvbHashtreeDescriptor_eq_ok_iff.mpr hd
    obtain ⟨items, x, hitems, hrest⟩ := hd
    have hdigest := get_of_field? hv.partitionName "Root Digest".toList
    refine Loop.bind_eq_ok.mpr ⟨_, (htool _).mpr havbtool, Loop.bind_eq_ok.mpr
      ⟨_, Loop.bind_eq_ok.mpr ⟨_, hraw, hparse⟩, Loop.bind_eq_ok.mpr ⟨_, hdescriptor _,
      Loop.bind_eq_ok.mpr ⟨_, (footerCommand_eq_ok_iff hitems).mpr ⟨v, hv, rfl⟩,
      Loop.bind_eq_ok.mpr ⟨_, hout, Loop.bind_eq_ok.mpr
      ⟨_, Loop.bind_eq_ok.mpr ⟨_, rfl, hnew⟩, Loop.bind_eq_ok.mpr ⟨_, hdescriptor _,
      Loop.bind_eq_ok.mpr ⟨_, hdigest, Loop.bind_eq_ok.mpr ⟨_, hdigest, ?_⟩⟩⟩⟩⟩⟩⟩⟩⟩
    -- the digest is compared with itself
    cases d.field? "Root Digest".toList with
    | none => rfl
    | some digest => rw [checkRootDigest, Info.same_self, if_pos rfl]

/-- An output with nothing but the root digest of one hashtree descriptor. -/
def digestText (digest : String) : Str :=
  ("Descriptors:\n Hashtree descriptor:\n  Root Digest: " ++ digest).toList

def digestInfo (digest : String) : Info :=
  .dict [("Descriptors".toList, .list [.dict [("Hashtree descriptor".toList,
    .dict [("Root Digest".toList, .text digest.toList)])]])]

theorem oneHashtreeDescriptor_digestInfo
    (digest : String) :
    OneHashtreeDescriptor (digestInfo digest)
      (.dict [("Root Digest".toList, .text digest.toList)]) :=
  ⟨_, _, rfl, rfl, rfl⟩

variable {tool image new_key new_algorithm misc_info}

/-- The first output has the digest that such a second output should have. -/
theorem digest_of_kept
    {digest : String} (hparse : parseAvbInfo (digestText digest) = .ok (digestInfo digest))
    (h : DigestKept tool image misc_info (digestText digest)) :
    ∃ avbtool info d, IsFirstInfo tool image misc_info avbtool info ∧
      OneHashtreeDescriptor info d ∧
        d.field? "Root Digest".toList = some (.text digest.toList) := by
  obtain ⟨avbtool, info, new_info, d, d', hfirst, hnew, hd, hd', hdigest⟩ := h
  rw [hparse] at hnew
  cases hnew
  rw [hd'.unique (oneHashtreeDescriptor_digestInfo digest)] at hdigest
  exact ⟨avbtool, info, d, hfirst, hd, hdigest⟩

theorem IsFirstInfo.unique
    {avbtool avbtool' : Str} {info info' : Info}
    (h : IsFirstInfo tool image misc_info avbtool info)
    (h' : IsFirstInfo tool image misc_info avbtool' info') :
    info = info' := by
  obtain ⟨htool, raw, hraw, hparse⟩ := h
  obtain ⟨htool', raw', hraw', hparse'⟩ := h'
  rw [htool] at htool'
  cases htool'
  rw [hraw] at hraw'
  cases hraw'
  rw [hparse] at hparse'
  exact Except.ok.inj hparse'

variable (tool image new_key new_algorithm misc_info)

/-- A normal return says that the digest is kept for all second outputs, if and only if there is
no normal return. -/
theorem digestKept_iff :
    (∀ after, replaceKeyInAvbHashtreeFooter (tool.withAfter after) image new_key new_algorithm
        misc_info = .ok () → DigestKept tool image misc_info after) ↔
      ¬ Resigns tool image new_key new_algorithm misc_info := by
  constructor
  · intro h hresigns
    have hkept : ∀ digest, parseAvbInfo (digestText digest) = .ok (digestInfo digest) →
        DigestKept tool image misc_info (digestText digest) := fun digest hparse =>
      h _ ((replaceKey_eq_ok_iff tool image new_key new_algorithm misc_info _).mpr
        ⟨hresigns, _, hparse⟩)
    have hzero : parseAvbInfo (digestText "00") = .ok (digestInfo "00") := by
      rfl
    have hone : parseAvbInfo (digestText "01") = .ok (digestInfo "01") := by
      rfl
    obtain ⟨_, info, d, hfirst, hd, hdigest⟩ := digest_of_kept hzero (hkept _ hzero)
    obtain ⟨_, info', d', hfirst', hd', hdigest'⟩ := digest_of_kept hone (hkept _ hone)
    obtain rfl := hfirst.unique hfirst'
    obtain rfl := hd.unique hd'
    rw [hdigest] at hdigest'
    revert hdigest'
    simp
  · intro hno after hreturn
    exact absurd ((replaceKey_eq_ok_iff tool image new_key new_algorithm misc_info _).mp
      hreturn).1 hno

end ReplaceKey

section Samples

def footerLayout : Layout where
  outer := 0
  descriptor := 1
  field := 2
  pad := fun _ => 1
  outer_lt := by decide
  descriptor_lt := by decide

def footerTree (digest : String) : AvbTree where
  fields := [("Image size".toList, "4096 bytes".toList)]
  descriptors := [.block "Hashtree descriptor".toList
    [("Hash Algorithm".toList, "sha256".toList), ("Partition Name".toList, "system".toList),
      ("Salt".toList, "cd".toList), ("Root Digest".toList, digest.toList)]]

/-- A tool that prints a root digest before and another one after. -/
def footerTool : Avbtool where
  before := fun _ => .ok ((footerTree "00").print footerLayout)
  addHashtreeFooter := fun _ => .ok []
  after := fun _ => .ok ((footerTree "01").print footerLayout)

def footerMiscInfo : OrderedDict Str Str :=
  OrderedDict.set OrderedDict.empty "avb_avbtool".toList "avbtool".toList

theorem oneHashtreeDescriptor_footerTree
    (digest : String) :
    OneHashtreeDescriptor (footerTree digest).toInfo
      (.dict (textEntries [("Hash Algorithm".toList, "sha256".toList),
        ("Partition Name".toList, "system".toList), ("Salt".toList, "cd".toList),
        ("Root Digest".toList, digest.toList)])) :=
  ⟨_, _, rfl, rfl, rfl⟩

/-- The function returns although the root digest has changed. -/
theorem replaceKey_changedDigest :
    replaceKeyInAvbHashtreeFooter footerTool "system.img".toList "key".toList
        "SHA256_RSA4096".toList footerMiscInfo = .ok () ∧
      ¬ DigestKept footerTool "system.img".toList footerMiscInfo
        ((footerTree "01").print footerLayout) := by
  have hbefore : parseAvbInfo ((footerTree "00").print footerLayout) =
      .ok (footerTree "00").toInfo := by
    rw [parseAvbInfo_print footerLayout (by decide +kernel)]
    rfl
  have hafter : parseAvbInfo ((footerTree "01").print footerLayout) =
      .ok (footerTree "01").toInfo := by
    rw [parseAvbInfo_print footerLayout (by decide +kernel)]
    rfl
  refine ⟨by decide +kernel, ?_⟩
  rintro ⟨avbtool, info, new_info, d, d', ⟨_, raw, hraw, hparse⟩, hnew, hd, hd', hdigest⟩
  cases hraw
  rw [hbefore] at hparse
  cases hparse
  rw [hafter] at hnew
  cases hnew
  rw [hd.unique (oneHashtreeDescriptor_footerTree "00"),
    hd'.unique (oneHashtreeDescriptor_footerTree "01")] at hdigest
  revert hdigest
  simp [Info.field?, textEntries, List.lookup]

end Samples

end SignTargetFilesApks
end AndroidBuild
