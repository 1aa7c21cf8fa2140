import AndroidBuild.Lib.Bytes
import AndroidBuild.Lib.Occurrences

/-!
# Signing a whole file

`SignApk.signWholeFile`.  The stream below the JAR writes to the signer and to
the file, until the archive is closed: then it keeps the footer, and replays all
of it but the comment length.  The signature goes into the archive comment.

What the JAR stream writes before and after `notifyClosing` and the signature
block of the signed bytes are parameters.
-/

namespace AndroidBuild
namespace SignApk

section Streams

/-- The calls that write to a stream. -/
inductive Write where
  | array (b : List UInt8)
  | slice (b : List UInt8) (off len : Nat)
  | byte (b : UInt8)

def Write.bytes : Write → List UInt8
  | .array b => b
  | .slice b off len => (b.drop off).take len
  | .byte b => [b]

/-- What the JAR stream writes before and after `notifyClosing`. -/
structure JarWrites where
  before : List Write
  after : List Write

def bytesOf (writes : List Write) : List UInt8 :=
  writes.flatMap Write.bytes

def JarWrites.archive (jar : JarWrites) : List UInt8 :=
  bytesOf jar.before ++ bytesOf jar.after

/-- The exceptions of `signWholeFile`. -/
inductive SignError where
  | ioException (message : String)
  | arrayIndexOutOfBounds
  | illegalArgument (message : String)
deriving DecidableEq

/-- `WholeFileSignerOutputStream`, with what its two streams have received. -/
structure WholeFileSigner where
  closing : Bool
  footer : List UInt8
  out : List UInt8
  tee : List UInt8

namespace WholeFileSigner

/-- `write`, for each kind of call. -/
def write (s : WholeFileSigner) (w : Write) : WholeFileSigner :=
  if s.closing then { s with footer := s.footer ++ w.bytes }
  else { s with out := s.out ++ w.bytes, tee := s.tee ++ w.bytes }

def notifyClosing (s : WholeFileSigner) : WholeFileSigner :=
  { s with closing := true }

def finish (s : WholeFileSigner) : Except SignError WholeFileSigner :=
  let s := { s with closing := false }
  let data := s.footer
  if data.length < 2 then .error (.ioException "Less than two bytes written to footer")
  else .ok (s.write (.slice data 0 (data.length - 2)))

def getTail (s : WholeFileSigner) : List UInt8 :=
  s.footer

end WholeFileSigner

/-- `CMSSigner.write`. -/
def cmsWrite (jar : JarWrites) : Except SignError WholeFileSigner :=
  let signer := jar.before.foldl WholeFileSigner.write ⟨false, [], [], []⟩
  let signer := jar.after.foldl WholeFileSigner.write signer.notifyClosing
  signer.finish

end Streams

section SignWholeFile

def eocdMark : List UInt8 :=
  [0x50, 0x4b, 0x05, 0x06]

/-- `"signed by SignApk"` and a null character. -/
def message : List UInt8 :=
  [115, 105, 103, 110, 101, 100, 32, 98, 121, 32, 83, 105, 103, 110, 65, 112, 107, 0]

/-- The place of the first mark in the comment; `i` is the place of its first byte. -/
def spuriousMark (i : Nat) : List UInt8 → Option Nat
  | [] => none
  | b :: rest => if eocdMark <+: b :: rest then some i else spuriousMark (i + 1) rest

/-- The file, and the bytes that went to the signer. -/
structure Signed where
  file : List UInt8
  signedData : List UInt8
deriving DecidableEq

def comment (signature : List UInt8) : List UInt8 :=
  let total_size := (message ++ signature).length + 6
  let signature_start := total_size - message.length
  message ++ signature ++ Bytes.ofNat 2 signature_start ++ [0xff, 0xff] ++
    Bytes.ofNat 2 total_size

/-- `signWholeFile`; `sign` is the signature block for the signed bytes. -/
def signWholeFile (jar : JarWrites) (sign : List UInt8 → List UInt8) :
    Except SignError Signed := do
  let signer ← cmsWrite jar
  let signature := sign signer.out
  let zipData := signer.getTail
  if zipData.length < 22 then .error .arrayIndexOutOfBounds
  else if ¬ eocdMark <+: zipData.drop (zipData.length - 22) then
    .error (.illegalArgument "zip data already has an archive comment")
  else
    let total_size := (message ++ signature).length + 6
    if total_size > 0xffff then
      .error (.illegalArgument "signature is too big for ZIP file comment")
    else
      match spuriousMark 0 (comment signature) with
      | some i => .error (.illegalArgument s!"found spurious EOCD header at {i}")
      | none => .ok ⟨signer.tee ++ Bytes.ofNat 2 total_size ++ comment signature, signer.out⟩

end SignWholeFile

section Footer

variable {jar : JarWrites} {sign : List UInt8 → List UInt8}

theorem foldl_write_open
    (writes : List Write) (footer out tee : List UInt8) :
    writes.foldl WholeFileSigner.write ⟨false, footer, out, tee⟩ =
      ⟨false, footer, out ++ bytesOf writes, tee ++ bytesOf writes⟩ := by
  induction writes generalizing out tee with
  | nil => simp [bytesOf]
  | cons w writes ih =>
      have hwrite : WholeFileSigner.write ⟨false, footer, out, tee⟩ w =
          ⟨false, footer, out ++ w.bytes, tee ++ w.bytes⟩ := rfl
      rw [List.foldl_cons, hwrite, ih]
      simp [bytesOf]

theorem foldl_write_closing
    (writes : List Write) (footer out tee : List UInt8) :
    writes.foldl WholeFileSigner.write ⟨true, footer, out, tee⟩ =
      ⟨true, footer ++ bytesOf writes, out, tee⟩ := by
  induction writes generalizing footer with
  | nil => simp [bytesOf]
  | cons w writes ih =>
      have hwrite : WholeFileSigner.write ⟨true, footer, out, tee⟩ w =
          ⟨true, footer ++ w.bytes, out, tee⟩ := rfl
      rw [List.foldl_cons, hwrite, ih]
      simp [bytesOf]

/-- The bytes that are signed: the archive without the comment length. -/
def signedPart (jar : JarWrites) : List UInt8 :=
  bytesOf jar.before ++ (bytesOf jar.after).take ((bytesOf jar.after).length - 2)

/-- The signer and the file receive the same bytes. -/
theorem cmsWrite_eq
    (h : 2 ≤ (bytesOf jar.after).length) :
    cmsWrite jar = .ok ⟨false, bytesOf jar.after, signedPart jar, signedPart jar⟩ := by
  simp only [cmsWrite, foldl_write_open, WholeFileSigner.notifyClosing, foldl_write_closing,
    WholeFileSigner.finish, List.nil_append]
  rw [if_neg (by omega)]
  simp [WholeFileSigner.write, Write.bytes, signedPart]

theorem cmsWrite_short
    (h : (bytesOf jar.after).length < 2) :
    cmsWrite jar = .error (.ioException "Less than two bytes written to footer") := by
  simp only [cmsWrite, foldl_write_open, WholeFileSigner.notifyClosing, foldl_write_closing,
    WholeFileSigner.finish, List.nil_append]
  rw [if_pos h]

theorem length_comment
    (signature : List UInt8) :
    (comment signature).length = signature.length + 24 := by
  simp [comment, message]

/-- The scan finds a mark wherever it is. -/
theorem spuriousMark_eq_none_iff
    {i : Nat} {b : List UInt8} :
    spuriousMark i b = none ↔ ¬ eocdMark <:+: b := by
  induction b generalizing i with
  | nil => simp [spuriousMark, eocdMark]
  | cons c b ih =>
      rw [spuriousMark, List.infix_cons_iff, not_or]
      split_ifs with h
      · simp [h]
      · rw [ih]
        simp [h]

theorem signWholeFile_eq_ok_iff
    {r : Signed} :
    signWholeFile jar sign = .ok r ↔
      22 ≤ (bytesOf jar.after).length ∧
      eocdMark <+: (bytesOf jar.after).drop ((bytesOf jar.after).length - 22) ∧
      (comment (sign (signedPart jar))).length ≤ 0xffff ∧
      ¬ eocdMark <:+: comment (sign (signedPart jar)) ∧
      r = ⟨signedPart jar ++ Bytes.ofNat 2 (comment (sign (signedPart jar))).length ++
        comment (sign (signedPart jar)), signedPart jar⟩ := by
  have htotal : ∀ signature, (message ++ signature).length + 6 = (comment signature).length := by
    intro signature
    rw [length_comment]
    simp [message]
  rw [signWholeFile]
  by_cases hshort : (bytesOf jar.after).length < 2
  · rw [cmsWrite_short hshort]
    refine iff_of_false (by simp [bind, Except.bind]) ?_
    rintro ⟨h22, _⟩
    omega
  · rw [cmsWrite_eq (by omega)]
    simp only [bind, Except.bind, WholeFileSigner.getTail, htotal]
    rw [← spuriousMark_eq_none_iff (i := 0)]
    split_ifs with h22 hmark hbig
    · exact iff_of_false (by simp) fun h => absurd h.1 (by omega)
    · exact iff_of_false (by simp) fun h => absurd h.2.2.1 (by omega)
    · cases hspurious : spuriousMark 0 (comment (sign (signedPart jar))) with
      | some i => exact iff_of_false (by simp) fun h => by cases h.2.2.2.1
      | none =>
          rw [Except.ok.injEq]
          constructor
          · rintro rfl
            exact ⟨by omega, hmark, by omega, rfl, rfl⟩
          · rintro ⟨_, _, _, _, rfl⟩
            rfl
    · exact iff_of_false (by simp) fun h => hmark h.2.1

end Footer

section Layout

/-- The archive ends with a record of 22 bytes that tells of no comment. -/
structure EndsWithRecord (archive body fields : List UInt8) : Prop where
  length_fields : fields.length = 16
  eq : archive = body ++ (eocdMark ++ fields) ++ [0, 0]

variable {jar : JarWrites} {sign : List UInt8 → List UInt8} {body fields : List UInt8}

/-- What is signed is the archive but its comment length. -/
theorem EndsWithRecord.signedPart_eq
    (h : EndsWithRecord jar.archive body fields) (hlength : 2 ≤ (bytesOf jar.after).length) :
    signedPart jar = body ++ (eocdMark ++ fields) := by
  have happend : signedPart jar ++ (bytesOf jar.after).drop ((bytesOf jar.after).length - 2) =
      body ++ (eocdMark ++ fields) ++ [0, 0] := by
    rw [← h.eq, signedPart, List.append_assoc, List.take_append_drop]
    rfl
  refine (List.append_inj' happend ?_).1
  rw [List.length_drop]
  exact Nat.sub_sub_self hlength

theorem file_eq
    (front signature : List UInt8) :
    front ++ comment signature =
      (front ++ message) ++ (signature ++ (Bytes.ofNat 2 (signature.length + 6) ++
        ([0xff, 0xff] ++ Bytes.ofNat 2 (comment signature).length))) := by
  rw [length_comment, comment]
  simp [message]

/-- The layout of the signed file, and the length at which the signature is refused. -/
theorem signWholeFile_layout
    (jar : JarWrites) (sign : List UInt8 → List UInt8) {body fields : List UInt8}
    (h : EndsWithRecord jar.archive body fields) :
    (∀ r, signWholeFile jar sign = .ok r →
      ∃ (n start : Nat) (C : List UInt8),
        r.file = r.signedData ++ Bytes.ofNat 2 n ++ C ∧ C.length = n ∧ n ≤ 0xffff ∧
          r.signedData ++ [0, 0] = jar.archive ∧
          C.drop (n - 6) = Bytes.ofNat 2 start ++ [0xff, 0xff] ++ Bytes.ofNat 2 n ∧
          6 ≤ start ∧ start ≤ n ∧
          (r.file.drop (r.file.length - start)).take (start - 6) = sign r.signedData) ∧
      (22 ≤ (bytesOf jar.after).length →
        0xffff < (message ++ sign (signedPart jar)).length + 6 →
          ∃ text, signWholeFile jar sign = .error (.illegalArgument text)) := by
  constructor
  · intro r hr
    obtain ⟨h22, _, hsize, _, rfl⟩ := signWholeFile_eq_ok_iff.mp hr
    generalize hsignature : sign (signedPart jar) = signature at hsize ⊢
    have hlength := length_comment signature
    refine ⟨(comment signature).length, signature.length + 6, comment signature, rfl, rfl, hsize,
      ?_, ?_, by omega, by omega, ?_⟩
    · rw [h.signedPart_eq (by omega), h.eq]
    · have hparts := file_eq [] signature
      rw [List.nil_append, List.nil_append, ← List.append_assoc] at hparts
      rw [hparts, List.drop_left', List.append_assoc, ← hparts]
      simp [message, hlength]
    · -- the block begins behind the message
      dsimp only
      rw [file_eq, List.drop_left', Nat.add_sub_cancel, List.take_left]
      simp [message]
      omega
  · intro h22 hbig
    rw [signWholeFile, cmsWrite_eq (by omega)]
    simp only [bind, Except.bind, WholeFileSigner.getTail]
    rw [if_neg (by omega)]
    split_ifs
    · exact ⟨_, rfl⟩
    · exact ⟨_, rfl⟩

def sampleJar : JarWrites where
  before := [.array [1], .byte 2]
  after := [.slice ([9] ++ eocdMark) 1 4, .array (List.replicate 18 0)]

theorem sampleJar_endsWithRecord :
    EndsWithRecord sampleJar.archive [1, 2] (List.replicate 16 0) :=
  ⟨rfl, rfl⟩

theorem signWholeFile_layout_sample :
    (∃ (r : Signed) (n : Nat) (C : List UInt8),
      signWholeFile sampleJar (fun _ => [7, 8, 9]) = .ok r ∧
        r.file = r.signedData ++ Bytes.ofNat 2 n ++ C ∧ C.length = n) ∧
      ∃ text, signWholeFile sampleJar (fun _ => List.replicate 65536 0) =
        .error (.illegalArgument text) := by
  constructor
  · have hlayout := signWholeFile_layout sampleJar (fun _ => [7, 8, 9]) sampleJar_endsWithRecord
    have hscan : spuriousMark 0 (comment [7, 8, 9]) = none := by
      decide
    obtain ⟨r, hok⟩ : ∃ r, signWholeFile sampleJar (fun _ => [7, 8, 9]) = .ok r :=
      ⟨_, signWholeFile_eq_ok_iff.mpr
        ⟨by decide, by decide, by decide, spuriousMark_eq_none_iff.mp hscan, rfl⟩⟩
    obtain ⟨n, _, C, hfile, hlength, _⟩ := hlayout.1 r hok
    exact ⟨r, n, C, hok, hfile, hlength⟩
  · have hlayout := signWholeFile_layout sampleJar (fun _ => List.replicate 65536 0)
      sampleJar_endsWithRecord
    refine hlayout.2 (by decide) ?_
    rw [List.length_append, List.length_replicate]
    decide

end Layout

section LastMark

/-- The mark stands at the place, and nowhere behind it. -/
def LastMark (file : List UInt8) (place : Nat) : Prop :=
  eocdMark <+: file.drop place ∧ ∀ i, place < i → ¬ eocdMark <+: file.drop i

/-- The mark begins again only behind itself. -/
theorem lastMark_append_iff
    (body rest : List UInt8) :
    LastMark (body ++ (eocdMark ++ rest)) body.length ↔ ¬ eocdMark <:+: rest := by
  rw [LastMark, List.drop_left, Occurrences.infix_iff_exists_drop, and_iff_right (List.prefix_append _ _),
    not_exists]
  constructor
  · intro h i hi
    refine h (body.length + (4 + i)) (by omega) ?_
    rw [List.drop_append, List.drop_eq_nil_of_le (by omega), List.nil_append,
      Nat.add_sub_cancel_left, List.drop_append, List.drop_eq_nil_of_le (by simp [eocdMark]),
      List.nil_append]
    simpa [eocdMark] using hi
  · intro h i hi hstart
    obtain ⟨j, rfl⟩ := Nat.exists_eq_add_of_lt hi
    rw [List.drop_append, List.drop_eq_nil_of_le (by omega), List.nil_append] at hstart
    have hj : body.length + j + 1 - body.length = j + 1 := by omega
    rw [hj] at hstart
    rcases Nat.lt_or_ge j 3 with hlt | hge
    · interval_cases j <;> simp [eocdMark] at hstart
    · obtain ⟨k, rfl⟩ := Nat.exists_eq_add_of_le hge
      refine h k ?_
      have hdrop : (eocdMark ++ rest).drop (3 + k + 1) = rest.drop k := by
        rw [Nat.add_right_comm, List.drop_append, List.drop_eq_nil_of_le (by simp [eocdMark])]
        simp [eocdMark]
      rwa [hdrop] at hstart

variable {jar : JarWrites} {sign : List UInt8 → List UInt8} {body fields : List UInt8}

theorem comment_eq_cons
    (signature : List UInt8) :
    ∃ rest, comment signature = 115 :: rest :=
  ⟨_, rfl⟩

/-- The mark of the record is the last one of the file exactly when the numbers of the record and
the comment length do not have it. -/
theorem signWholeFile_lastMark_iff
    (h : EndsWithRecord jar.archive body fields) {r : Signed}
    (hok : signWholeFile jar sign = .ok r) :
    LastMark r.file body.length ↔
      ¬ eocdMark <:+: fields ++ Bytes.ofNat 2 ((sign (signedPart jar)).length + 24) := by
  obtain ⟨h22, _, _, hscan, rfl⟩ := signWholeFile_eq_ok_iff.mp hok
  obtain ⟨rest, hcomment⟩ := comment_eq_cons (sign (signedPart jar))
  rw [h.signedPart_eq (by omega)] at hscan hcomment ⊢
  have hrest : ¬ eocdMark <:+: rest := fun hocc => hscan (by
    rw [hcomment]
    exact hocc.trans (List.suffix_cons _ _).isInfix)
  have hfile : body ++ (eocdMark ++ fields) ++
      Bytes.ofNat 2 (comment (sign (body ++ (eocdMark ++ fields)))).length ++
        comment (sign (body ++ (eocdMark ++ fields))) =
      body ++ (eocdMark ++ ((fields ++
        Bytes.ofNat 2 ((sign (body ++ (eocdMark ++ fields))).length + 24)) ++ 115 :: rest)) := by
    rw [← hcomment, length_comment]
    simp only [List.append_assoc]
  rw [hfile, lastMark_append_iff, Occurrences.infix_append_cons_iff (by decide), or_iff_left hrest]

/-- The central directory of this archive begins at 0x06054b50. -/
def offsetJar : JarWrites where
  before := [.array (List.replicate 101010256 0)]
  after := [.array (eocdMark ++ (List.replicate 12 0 ++ eocdMark)), .array [0, 0]]

theorem offsetJar_endsWithRecord :
    EndsWithRecord offsetJar.archive (List.replicate 101010256 0)
      (List.replicate 12 0 ++ eocdMark) := by
  refine ⟨rfl, ?_⟩
  simp only [JarWrites.archive, offsetJar, bytesOf, List.flatMap_cons, List.flatMap_nil,
    Write.bytes, List.append_nil, List.append_assoc]

theorem offsetJar_ok :
    ∃ r, signWholeFile offsetJar (fun _ => [7, 8, 9]) = .ok r ∧
      r.file = List.replicate 101010256 0 ++ (eocdMark ++ (List.replicate 12 0 ++ (eocdMark ++
        (Bytes.ofNat 2 (comment [7, 8, 9]).length ++ comment [7, 8, 9])))) := by
  have hscan : spuriousMark 0 (comment [7, 8, 9]) = none := by
    decide
  refine ⟨_, signWholeFile_eq_ok_iff.mpr
    ⟨by decide, by decide, by decide, spuriousMark_eq_none_iff.mp hscan, rfl⟩, ?_⟩
  rw [offsetJar_endsWithRecord.signedPart_eq (by decide)]
  simp only [List.append_assoc]

theorem signWholeFile_lastMark_sample :
    ∃ r, signWholeFile sampleJar (fun _ => [7, 8, 9]) = .ok r ∧ LastMark r.file 2 := by
  have hscan : spuriousMark 0 (comment [7, 8, 9]) = none := by
    decide
  obtain ⟨r, hok⟩ : ∃ r, signWholeFile sampleJar (fun _ => [7, 8, 9]) = .ok r :=
    ⟨_, signWholeFile_eq_ok_iff.mpr
      ⟨by decide, by decide, by decide, spuriousMark_eq_none_iff.mp hscan, rfl⟩⟩
  refine ⟨r, hok, (signWholeFile_lastMark_iff sampleJar_endsWithRecord hok).mpr ?_⟩
  exact spuriousMark_eq_none_iff.mp (show spuriousMark 0 _ = none by decide)

/-- The directory offset looks like a mark behind the mark of the record. -/
theorem signWholeFile_offsetMark :
    ∃ r, signWholeFile offsetJar (fun _ => [7, 8, 9]) = .ok r ∧
      ¬ LastMark r.file (List.replicate 101010256 (0 : UInt8)).length := by
  obtain ⟨r, hok, hfile⟩ := offsetJar_ok
  refine ⟨r, hok, ?_⟩
  rw [hfile, lastMark_append_iff, not_not]
  exact ⟨List.replicate 12 0, _, rfl⟩

end LastMark

end SignApk
end AndroidBuild
