import AndroidBuild.FsConfig.ConfigFile
import AndroidBuild.Lib.Bytes
import AndroidBuild.Lib.Loop

/-!
# The generator of fs_config files

`FSConfigGen` reads the headers and the config.fs files and writes the entries
of one partition as binary records.
-/

namespace AndroidBuild
namespace FsConfig

open Text IntLiteral

section Capabilities

variable (U : Unicode)

/-- `CapabilityHeaderParser._SKIP_CAPS`. -/
def skipCaps : List Str :=
  ["CAP_LAST_CAP".toList, "CAP_TO_INDEX(x)".toList, "CAP_TO_MASK(x)".toList]

/-- `CapabilityHeaderParser._CAP_DEFINE`: the groups of the line. -/
def capDefine (line : Str) : Option (Str × Str) :=
  match wordsFrom [] line with
  | define :: cap :: value :: _ =>
      if define = "#define".toList ∧ "CAP_".toList.isPrefixOf cap ∧ cap ≠ "CAP_".toList then
        some (cap, value)
      else none
  | _ => none

/-- One round of the loop of `CapabilityHeaderParser._parse`. -/
def parseCapLine (caps : OrderedDict Str Int) (line : Str) :
    Except Failure (OrderedDict Str Int) :=
  match capDefine line with
  | none => .ok caps
  | some (cap, value) =>
      if cap ∈ skipCaps then .ok caps
      else
        match readInt U 0 value with
        | some n => .ok (caps.set cap n)
        | none =>
            .error (.exit ("Could not parse capability define \"".toList ++ cap ++ "\":\"".toList ++
              value ++ "\"".toList))

/-- `CapabilityHeaderParser(capability_header)`, on the lines of the header. -/
def parseCaps (lines : List Str) : Except Failure (OrderedDict Str Int) :=
  lines.foldlM (parseCapLine U) .empty

/-- The line defines the capability as the number. -/
def Defines (line cap : Str) (n : Int) : Prop :=
  ∃ value, capDefine line = some (cap, value) ∧ cap ∉ skipCaps ∧ readInt U 0 value = some n

variable {U}

theorem parseCapLine_spec
    {caps caps' : OrderedDict Str Int} {line : Str} (h : parseCapLine U caps line = .ok caps')
    {cap : Str} {n : Int} (hget : caps'.get? cap = some n) :
    caps.get? cap = some n ∨ Defines U line cap n := by
  unfold parseCapLine at h
  cases hdefine : capDefine line with
  | none =>
      rw [hdefine] at h
      cases h
      exact Or.inl hget
  | some define =>
      rw [hdefine] at h
      dsimp only at h
      split_ifs at h with hskip
      · cases h
        exact Or.inl hget
      · cases hvalue : readInt U 0 define.2 with
        | none =>
            rw [hvalue] at h
            cases h
        | some m =>
            rw [hvalue] at h
            cases h
            rw [OrderedDict.get?_set] at hget
            split_ifs at hget with hcap
            · cases hget
              subst hcap
              exact Or.inr ⟨_, hdefine, hskip, hvalue⟩
            · exact Or.inl hget

/-- Every capability has the number that some line of the header defines. -/
theorem parseCaps_spec
    {lines : List Str} {caps : OrderedDict Str Int} (h : parseCaps U lines = .ok caps)
    {cap : Str} {n : Int} (hget : caps.get? cap = some n) :
    ∃ line ∈ lines, Defines U line cap n := by
  suffices H : ∀ start : OrderedDict Str Int, lines.foldlM (parseCapLine U) start = .ok caps →
      start.get? cap = some n ∨ ∃ line ∈ lines, Defines U line cap n from
    (H _ h).resolve_left (Option.some_ne_none _).symm
  clear h
  induction lines with
  | nil =>
      rintro start h
      cases h
      exact Or.inl hget
  | cons line lines ih =>
      intro start h
      obtain ⟨next, hline, hrest⟩ := Loop.foldlM_cons_ok h
      rcases ih next hrest with hnext | ⟨line', hmem, hdefines⟩
      · rcases parseCapLine_spec hline hnext with hstart | hdefines
        · exact Or.inl hstart
        · exact Or.inr ⟨line, List.mem_cons_self, hdefines⟩
      · exact Or.inr ⟨line', List.mem_cons_of_mem _ hmem, hdefines⟩

end Capabilities

section Emit

def system : Str :=
  "system".toList

/-- `FSConfigGen._emit_entry`, on the path of the entry. -/
def emitEntry (partition : Str) (allPartitions : Option Str) (path : Str) : Bool :=
  if partition = system then
    match allPartitions with
    | none => true
    | some [] => true
    | some names =>
        !(partsFrom ',' [] names).any (fun skipPartition =>
          skipPartition.isPrefixOf path || ("system/".toList ++ skipPartition).isPrefixOf path)
  else
    partition.isPrefixOf path || ("system/".toList ++ partition).isPrefixOf path

end Emit

section Generator

variable (U : Unicode)

/-- `FSConfigGen`, once the headers and the config.fs files are read. -/
structure FSConfigGen where
  caps : OrderedDict Str Int
  friendlyToAid : OrderedDict Str (AID U)
  idToAid : OrderedDict Str (AID U)

variable {U}

/-- `{key(aid): aid for aid in aids}`, added to a dictionary. -/
def addAids (key : AID U → Str) (d : OrderedDict Str (AID U)) (aids : List (AID U)) :
    OrderedDict Str (AID U) :=
  aids.foldl (fun d aid => d.set (key aid) aid) d

/-- The message for an id of both the header and the config.fs files. -/
def collisionMessage (base oem : AID U) : Str :=
  "Following AID Collisions detected for: \n".toList ++ "Identifier: \"".toList ++
    base.identifier ++ "\" Friendly Name: \"".toList ++ base.friendly ++
    "\" found in file \"".toList ++ base.found ++ "\" and \"".toList ++ oem.found ++ "\"".toList

/-- The part of `FSConfigGen.__call__` that checks the ids for collisions and
indexes them. -/
def collect (caps : OrderedDict Str Int) (baseAids oemAids : List (AID U)) :
    Except Failure (FSConfigGen U) :=
  let baseFriendly := addAids AID.friendly .empty baseAids
  let oemFriendly := addAids AID.friendly .empty oemAids
  let common := baseFriendly.entries.findSome? (fun e =>
    (oemFriendly.get? e.1).map (fun oem => (e.2, oem)))
  match common with
  | some (base, oem) => .error (.exit (collisionMessage base oem))
  | none =>
      .ok {
        caps := caps
        friendlyToAid := baseFriendly.entries.foldl (fun d e => d.set e.1 e.2) oemFriendly
        idToAid := addAids AID.identifier (addAids AID.identifier .empty baseAids) oemAids }

def FSConfigGen.remap (gen : FSConfigGen U) (user : Str) : Except Failure (AID U) :=
  match if isFriendly user then gen.friendlyToAid.get? user else gen.idToAid.get? user with
  | some aid => .ok aid
  | none => .error (.exit ("Cannot convert \"".toList ++ user ++ "\" to identifier!".toList))

/-- `caps_value += 1 << caps_dict[cap]`. -/
def addCap (caps : OrderedDict Str Int) (capsValue : Int) (cap : Str) : Except Failure Int :=
  match caps.get? cap with
  | none => .error (.exit ("Unknown cap \"".toList ++ cap ++ "\" found!".toList))
  | some (.ofNat n) => .ok (capsValue + 2 ^ n)
  | some (.negSucc _) => .error (.raised "ValueError".toList)

def FSConfigGen.capsValue (gen : FSConfigGen U) (caps : Str) : Except Failure Int :=
  match readInt U 0 caps with
  | some n => .ok n
  | none => (partsFrom ',' [] caps).foldlM (addCap gen.caps) 0

/-- The bytes of `ctypes.c_uint16(n)`, or of another width. -/
def cUint (width : Nat) (n : Int) : List UInt8 :=
  Bytes.ofNat width (n % 256 ^ width).toNat

/-- `path.encode()`. -/
def encode (path : Str) : List UInt8 :=
  path.flatMap String.utf8EncodeChar

/-- `ctypes.create_string_buffer(init, size).raw`. -/
def createStringBuffer (init : List UInt8) (size : Nat) : Except Failure (List UInt8) :=
  if init.length ≤ size then .ok (init ++ List.replicate (size - init.length) 0)
  else .error (.raised "ValueError".toList)

/-- `FSConfigGen._to_fs_entry`: the bytes that it writes. -/
def FSConfigGen.toFsEntry (gen : FSConfigGen U) (fsConfig : FSConfig) :
    Except Failure (List UInt8) := do
  match readInt U 8 fsConfig.mode with
  | none => .error (.raised "ValueError".toList)
  | some mode =>
      let user ← gen.remap fsConfig.user
      let group ← gen.remap fsConfig.group
      let capsValue ← gen.capsValue fsConfig.caps
      let pathLengthWithNull := fsConfig.path.length + 1
      let pathLengthAligned64 := (pathLengthWithNull + 7) / 8 * 8
      let length := 16 + pathLengthAligned64
      let pathBinary ← createStringBuffer (encode fsConfig.path) pathLengthAligned64
      .ok (cUint 2 length ++ cUint 2 mode ++ cUint 2 user.uid ++ cUint 2 group.uid ++
        cUint 8 capsValue ++ pathBinary)

def FSConfigGen.writeEntries (gen : FSConfigGen U) (entries : List FSConfig) :
    Except Failure (List UInt8) :=
  entries.foldlM (fun out e => do
    let binary ← gen.toFsEntry e
    .ok (out ++ binary)) []

/-- The arguments of the generator, with the contents of its files. -/
structure Args where
  capabilityHeader : List Str
  aidHeader : Str
  aidHeaderLines : List Str
  fsconfig : List (Str × List ConfigSection)
  partition : Str
  allPartitions : Option Str
  files : Bool
  dirs : Bool

/-- `FSConfigGen.__call__`: the bytes of the output file. -/
def fsconfig (U : Unicode) (args : Args) : Except Failure (List UInt8) := do
  let caps ← parseCaps U args.capabilityHeader
  let baseParser ← parseHeader (U := U) args.aidHeader args.aidHeaderLines
  let oemParser ← parseConfigs (U := U) baseParser.ranges args.fsconfig
  if args.files && args.dirs then
    .error (.exit "Only one of --files or --dirs can be provided".toList)
  else if !args.files && !args.dirs then
    .error (.exit "One of --files or --dirs must be provided".toList)
  else
    let gen ← collect caps baseParser.aids oemParser.aids
    let entries := if args.files then oemParser.files else oemParser.dirs
    gen.writeEntries (entries.filter (fun e => emitEntry args.partition args.allPartitions e.path))

/-- The entries that a run writes. -/
def emitted (args : Args) (oemParser : ConfigState U) : List FSConfig :=
  (if args.files then oemParser.files else oemParser.dirs).filter
    (fun e => emitEntry args.partition args.allPartitions e.path)

theorem collect_caps
    {caps : OrderedDict Str Int} {baseAids oemAids : List (AID U)} {gen : FSConfigGen U}
    (h : collect caps baseAids oemAids = .ok gen) :
    gen.caps = caps := by
  unfold collect at h
  dsimp only at h
  split at h
  · cases h
  · cases h
    rfl

/-- A run writes the files or the directories of its partition, with the capabilities of the
header. -/
theorem fsconfig_spec
    {args : Args} {out : List UInt8} (h : fsconfig U args = .ok out) :
    ∃ (baseParser : AIDHeaderParser U) (oemParser : ConfigState U) (gen : FSConfigGen U),
      parseHeader args.aidHeader args.aidHeaderLines = .ok baseParser ∧
      parseConfigs baseParser.ranges args.fsconfig = .ok oemParser ∧
      args.files = !args.dirs ∧
      parseCaps U args.capabilityHeader = .ok gen.caps ∧
      gen.writeEntries (emitted args oemParser) = .ok out := by
  unfold fsconfig at h
  obtain ⟨caps, hcaps, h⟩ := Loop.bind_eq_ok.mp h
  obtain ⟨baseParser, hbase, h⟩ := Loop.bind_eq_ok.mp h
  obtain ⟨oemParser, hoem, h⟩ := Loop.bind_eq_ok.mp h
  have hone : args.files = !args.dirs := by
    revert h
    cases args.files <;> cases args.dirs <;> simp
  rw [if_neg (by simp [hone]), if_neg (by simp [hone])] at h
  obtain ⟨gen, hgen, h⟩ := Loop.bind_eq_ok.mp h
  exact ⟨baseParser, oemParser, gen, hbase, hoem, hone, collect_caps hgen ▸ hcaps, h⟩

end Generator

end FsConfig
end AndroidBuild
