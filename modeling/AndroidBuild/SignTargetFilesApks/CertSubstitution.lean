import AndroidBuild.Lib.Loop
import AndroidBuild.SignTargetFilesApks.ReplaceCerts
import Mathlib

/-!
# Replacing certificates all at once

The entries of the key map are applied one after another, so that a new
certificate may be replaced again.  The text is cut into words, and what happens
to a word depends on the entries behind the one that takes it first.
-/

namespace AndroidBuild
namespace SignTargetFilesApks

open Text WholeWords

section Specification

variable (world : World)

def certificate (key : Str) : Option (List UInt8) :=
  (certFile world key).bind parseCertificate

def hexOf (key : Str) : Str :=
  cert16 ((certificate world key).getD [])

/-- The old and the new keys of a map. -/
def Mentioned (key_map : OrderedDict Str Str) (key : Str) : Prop :=
  ∃ e ∈ key_map.entries, key = e.1 ∨ key = e.2

/-- There is a certificate for each path and no two are the same. -/
structure HasCertificates (key_map : OrderedDict Str Str) : Prop where
  present : ∀ key, Mentioned key_map key → ∃ cert, certificate world key = some cert ∧ cert ≠ []
  distinct : ∀ key key', Mentioned key_map key → Mentioned key_map key' →
    certificate world key = certificate world key' → key = key'

/-- A word, when it is the certificate of an old key, becomes that of its new key. -/
def newWord (key_map : OrderedDict Str Str) (word : Str) : Str :=
  match key_map.entries.find? fun e => word.map Char.toLower = hexOf world e.1 with
  | some e => hexOf world e.2
  | none => word

/-- The words of the text are replaced all at once. -/
def simultaneous (key_map : OrderedDict Str Str) (data : Str) : Str :=
  ((runs world.isWord data).map (newWord world key_map)).flatten

/-- The text has the word, in letters of either case. -/
def Occurs (data word : Str) : Prop :=
  ∃ run ∈ runs world.isWord data, run.map Char.toLower = word

def follow (entries : List (Str × Str)) (hex : Str) : Str :=
  entries.foldl (fun hex e => if hex = hexOf world e.1 then hexOf world e.2 else hex) hex

/-- For each old key that occurs the entries behind it lead its new certificate back to
itself. -/
def Stable (entries : List (Str × Str)) (data : Str) : Prop :=
  ∀ earlier old new later, entries = earlier ++ (old, new) :: later →
    Occurs world data (hexOf world old) → follow world later (hexOf world new) = hexOf world new

end Specification

section Hex

theorem toLower_toUpper_digitChar
    {n : Nat} (h : n < 16) :
    (Nat.digitChar n).toUpper.toLower = Nat.digitChar n := by
  interval_cases n <;> rfl

theorem digitChar_inj
    {n k : Nat} (hn : n < 16) (hk : k < 16) (h : Nat.digitChar n = Nat.digitChar k) :
    n = k := by
  interval_cases n <;> interval_cases k <;> first | rfl | cases h

theorem cert16_cons
    (b : UInt8) (bytes : List UInt8) :
    cert16 (b :: bytes) =
      Nat.digitChar (b.toNat / 16) :: Nat.digitChar (b.toNat % 16) :: cert16 bytes := by
  have hb := b.toNat_lt
  rw [cert16, b16encode, List.flatMap_cons, List.map_append, List.map_cons, List.map_cons,
    toLower_toUpper_digitChar (by omega), toLower_toUpper_digitChar (by omega)]
  rfl

theorem cert16_injective :
    Function.Injective cert16 := by
  intro bytes
  induction bytes with
  | nil =>
      rintro (_ | ⟨b, bytes⟩) h
      · rfl
      · rw [cert16_cons] at h
        cases h
  | cons b bytes ih =>
      rintro (_ | ⟨b', bytes'⟩) h
      · rw [cert16_cons] at h
        cases h
      · have hb := b.toNat_lt
        have hb' := b'.toNat_lt
        rw [cert16_cons, cert16_cons] at h
        obtain ⟨hhigh, h⟩ := List.cons.inj h
        obtain ⟨hlow, h⟩ := List.cons.inj h
        have hdiv := digitChar_inj (by omega) (by omega) hhigh
        have hmod := digitChar_inj (by omega) (by omega) hlow
        have hbyte : b = b' := UInt8.toNat_inj.mp (by omega)
        rw [hbyte, ih h]

theorem mem_cert16
    {bytes : List UInt8} {c : Char} (h : c ∈ cert16 bytes) :
    ∃ n < 16, c = Nat.digitChar n := by
  induction bytes with
  | nil => cases h
  | cons b bytes ih =>
      have hb := b.toNat_lt
      rw [cert16_cons, List.mem_cons, List.mem_cons] at h
      rcases h with h | h | h
      · exact ⟨_, by omega, h⟩
      · exact ⟨_, by omega, h⟩
      · exact ih h

theorem toLower_digitChar
    {n : Nat} (h : n < 16) :
    (Nat.digitChar n).toLower = Nat.digitChar n := by
  interval_cases n <;> rfl

theorem map_toLower_cert16
    (bytes : List UInt8) :
    (cert16 bytes).map Char.toLower = cert16 bytes := by
  refine (List.map_congr_left fun c hc => ?_).trans (List.map_id _)
  obtain ⟨n, hn, rfl⟩ := mem_cert16 hc
  exact toLower_digitChar hn

/-- A character that folds to a hexadecimal digit. -/
theorem isAlphanum_of_toLower
    {c : Char} {n : Nat} (hn : n < 16) (h : c.toLower = Nat.digitChar n) :
    c.isAlphanum = true := by
  by_cases hupper : c.isUpper = true
  · simp [Char.isAlphanum, Char.isAlpha, hupper]
  · have hsame : c.toLower = c := by
      rw [Char.toLower, dif_neg]
      simpa [Char.isUpper] using hupper
    rw [← hsame, h]
    interval_cases n <;> rfl

theorem cert16_ne_nil
    {bytes : List UInt8} (h : bytes ≠ []) :
    cert16 bytes ≠ [] := by
  obtain ⟨b, rest, rfl⟩ := List.exists_cons_of_ne_nil h
  rw [cert16_cons]
  exact List.cons_ne_nil _ _

theorem isWordPair_cert16
    {isWord : Char → Bool} (hword : ∀ c, c.isAlphanum = true → isWord c = true)
    {old new : List UInt8} (hold : old ≠ []) (hnew : new ≠ []) :
    IsWordPair isWord Char.toLower (cert16 old) (cert16 new) where
  pattern_ne_nil := cert16_ne_nil hold
  pattern_word := by
    intro c hc
    rw [map_toLower_cert16] at hc
    obtain ⟨n, hn, heq⟩ := mem_cert16 hc
    exact hword c (isAlphanum_of_toLower hn heq)
  new_ne_nil := cert16_ne_nil hnew
  new_word := by
    intro c hc
    obtain ⟨n, hn, rfl⟩ := mem_cert16 hc
    exact hword _ (isAlphanum_of_toLower hn (toLower_digitChar hn))

end Hex

section Words

variable {world : World} {key_map : OrderedDict Str Str}

theorem hexOf_inj
    (hcerts : HasCertificates world key_map) {key key' : Str} (hkey : Mentioned key_map key)
    (hkey' : Mentioned key_map key') (h : hexOf world key = hexOf world key') :
    key = key' := by
  obtain ⟨cert, hcert, _⟩ := hcerts.present key hkey
  obtain ⟨cert', hcert', _⟩ := hcerts.present key' hkey'
  refine hcerts.distinct key key' hkey hkey' ?_
  rw [hexOf, hexOf, hcert, hcert'] at h
  rw [hcert, hcert']
  exact congrArg some (cert16_injective h)

theorem map_toLower_hexOf
    (key : Str) :
    (hexOf world key).map Char.toLower = hexOf world key :=
  map_toLower_cert16 _

theorem isWordPair_hexOf
    (hword : ∀ c, c.isAlphanum = true → world.isWord c = true)
    (hcerts : HasCertificates world key_map) {e : Str × Str} (he : e ∈ key_map.entries) :
    IsWordPair world.isWord Char.toLower (hexOf world e.1) (hexOf world e.2) := by
  obtain ⟨old, hold, hold'⟩ := hcerts.present e.1 ⟨e, he, Or.inl rfl⟩
  obtain ⟨new, hnew, hnew'⟩ := hcerts.present e.2 ⟨e, he, Or.inr rfl⟩
  rw [hexOf, hexOf, hold, hnew]
  exact isWordPair_cert16 hword hold' hnew'

theorem replaceCert_ok
    (hcerts : HasCertificates world key_map) {e : Str × Str} (he : e ∈ key_map.entries)
    (data : Str) :
    replaceCert world data e =
      .ok (replaceWords world.isWord Char.toLower (hexOf world e.1) (hexOf world e.2) data) := by
  obtain ⟨old, hold, _⟩ := hcerts.present e.1 ⟨e, he, Or.inl rfl⟩
  obtain ⟨new, hnew, _⟩ := hcerts.present e.2 ⟨e, he, Or.inr rfl⟩
  have hhex : hexOf world e.1 = cert16 old ∧ hexOf world e.2 = cert16 new := by
    rw [hexOf, hexOf, hold, hnew]
    exact ⟨rfl, rfl⟩
  obtain ⟨oldText, holdText, holdParse⟩ := Option.bind_eq_some_iff.mp hold
  obtain ⟨newText, hnewText, hnewParse⟩ := Option.bind_eq_some_iff.mp hnew
  rw [replaceCert, holdText]
  simp only [holdParse, hnewText, hnewParse, hhex]

def wordAfter (world : World) (entries : List (Str × Str)) (word : Str) : Str :=
  entries.foldl (fun word e =>
    replaceRun Char.toLower (hexOf world e.1) (hexOf world e.2) word) word

/-- The words of the text after the loop. -/
theorem foldlM_replaceCert
    (hword : ∀ c, c.isAlphanum = true → world.isWord c = true)
    (hcerts : HasCertificates world key_map) {entries : List (Str × Str)}
    (hentries : ∀ e ∈ entries, e ∈ key_map.entries) (data : Str) :
    ∃ data', entries.foldlM (replaceCert world) data = .ok data' ∧
      runs world.isWord data' = (runs world.isWord data).map (wordAfter world entries) := by
  induction entries generalizing data with
  | nil =>
      refine ⟨data, rfl, ?_⟩
      exact (List.map_id _).symm
  | cons e entries ih =>
      have he := hentries e List.mem_cons_self
      obtain ⟨data', hrun, hruns⟩ := ih (fun e' he' => hentries e' (List.mem_cons_of_mem _ he'))
        (replaceWords world.isWord Char.toLower (hexOf world e.1) (hexOf world e.2) data)
      refine ⟨data', ?_, ?_⟩
      · rw [List.foldlM_cons, replaceCert_ok hcerts he]
        exact hrun
      · rw [hruns, runs_replaceWords (isWordPair_hexOf hword hcerts he), List.map_map]
        rfl

theorem wordAfter_of_ne
    {entries : List (Str × Str)} {word : Str}
    (h : ∀ e ∈ entries, word.map Char.toLower ≠ hexOf world e.1) :
    wordAfter world entries word = word := by
  induction entries with
  | nil => rfl
  | cons e entries ih =>
      have hstep : replaceRun Char.toLower (hexOf world e.1) (hexOf world e.2) word = word := by
        refine if_neg ?_
        rw [map_toLower_hexOf]
        exact h e List.mem_cons_self
      rw [wordAfter, List.foldl_cons, hstep]
      exact ih fun e' he' => h e' (List.mem_cons_of_mem _ he')

theorem wordAfter_hexOf
    (entries : List (Str × Str)) (key : Str) :
    wordAfter world entries (hexOf world key) = follow world entries (hexOf world key) := by
  induction entries generalizing key with
  | nil => rfl
  | cons e entries ih =>
      rw [wordAfter, follow, List.foldl_cons, List.foldl_cons, replaceRun, map_toLower_hexOf,
        map_toLower_hexOf]
      split_ifs
      · exact ih e.2
      · exact ih key

/-- A word that is an old certificate follows the entries behind its own. -/
theorem wordAfter_split
    {earlier later : List (Str × Str)} {old new word : Str}
    (hword : word.map Char.toLower = hexOf world old)
    (hearlier : ∀ e ∈ earlier, hexOf world old ≠ hexOf world e.1) :
    wordAfter world (earlier ++ (old, new) :: later) word =
      follow world later (hexOf world new) := by
  have hfirst : wordAfter world earlier word = word := by
    refine wordAfter_of_ne ?_
    rw [hword]
    exact hearlier
  have hown : replaceRun Char.toLower (hexOf world old) (hexOf world new) word =
      hexOf world new := by
    refine if_pos ?_
    rw [hword, map_toLower_hexOf]
  have happend : wordAfter world (earlier ++ (old, new) :: later) word =
      wordAfter world ((old, new) :: later) (wordAfter world earlier word) := List.foldl_append
  rw [happend, hfirst, wordAfter, List.foldl_cons, hown]
  exact wordAfter_hexOf later new

theorem newWord_of_mem
    (hcerts : HasCertificates world key_map) {e : Str × Str} (he : e ∈ key_map.entries)
    {word : Str} (hword : word.map Char.toLower = hexOf world e.1) :
    newWord world key_map word = hexOf world e.2 := by
  rw [newWord]
  cases hfind : key_map.entries.find? fun e => word.map Char.toLower = hexOf world e.1 with
  | none =>
      have := List.find?_eq_none.mp hfind e he
      simp [hword] at this
  | some e' =>
      have he' := List.mem_of_find?_eq_some hfind
      have hhex : hexOf world e.1 = hexOf world e'.1 := by
        rw [← hword]
        simpa using List.find?_some hfind
      have hkey := hexOf_inj hcerts ⟨e, he, Or.inl rfl⟩ ⟨e', he', Or.inl rfl⟩ hhex
      have hvalue : key_map.get? e.1 = some e.2 := key_map.get?_of_mem he
      have hvalue' : key_map.get? e'.1 = some e'.2 := key_map.get?_of_mem he'
      rw [hkey, hvalue'] at hvalue
      exact congrArg (hexOf world) (Option.some.inj hvalue)

theorem newWord_of_ne
    {word : Str} (h : ∀ e ∈ key_map.entries, word.map Char.toLower ≠ hexOf world e.1) :
    newWord world key_map word = word := by
  have hfind : (key_map.entries.find? fun e => word.map Char.toLower = hexOf world e.1) =
      none := by
    rw [List.find?_eq_none]
    intro e he
    simpa using h e he
  rw [newWord, hfind]

theorem runs_simultaneous
    (hword : ∀ c, c.isAlphanum = true → world.isWord c = true)
    (hcerts : HasCertificates world key_map) (data : Str) :
    runs world.isWord (simultaneous world key_map data) =
      (runs world.isWord data).map (newWord world key_map) := by
  refine runs_flatten_map (fun run _ => ?_) data
  by_cases hold : ∃ e ∈ key_map.entries, run.map Char.toLower = hexOf world e.1
  · obtain ⟨e, he, hrun⟩ := hold
    have hpair := isWordPair_hexOf hword hcerts he
    right
    rw [newWord_of_mem hcerts he hrun]
    refine ⟨fun c hc => hpair.pattern_word c ?_, hpair.new_ne_nil, hpair.new_word⟩
    rw [map_toLower_hexOf, ← hrun]
    exact List.mem_map_of_mem hc
  · left
    exact newWord_of_ne fun e he heq => hold ⟨e, he, heq⟩

/-- One order of the entries replaces at once exactly when it is stable. -/
theorem replaced_iff_stable
    (hcerts : HasCertificates world key_map) {order : OrderedDict Str Str}
    (horder : order.entries.Perm key_map.entries) (data : Str) :
    (∀ word ∈ runs world.isWord data,
        wordAfter world order.entries word = newWord world key_map word) ↔
      Stable world order.entries data := by
  have hmentioned : ∀ e ∈ order.entries, Mentioned key_map e.1 :=
    fun e he => ⟨e, horder.mem_iff.mp he, Or.inl rfl⟩
  -- the earlier entries have other certificates
  have hearlier : ∀ earlier old new later, order.entries = earlier ++ (old, new) :: later →
      ∀ e ∈ earlier, hexOf world old ≠ hexOf world e.1 := by
    intro earlier old new later hsplit e he hhex
    have hmem : ∀ e', e' ∈ earlier ∨ e' ∈ (old, new) :: later → e' ∈ order.entries := by
      intro e' he'
      rw [hsplit]
      exact List.mem_append.mpr he'
    have hkey := hexOf_inj hcerts (hmentioned _ (hmem _ (Or.inr List.mem_cons_self)))
      (hmentioned e (hmem e (Or.inl he))) hhex
    have hnodup := order.keys_nodup
    rw [OrderedDict.keys, hsplit, List.map_append, List.nodup_append] at hnodup
    exact hnodup.2.2 e.1 (List.mem_map_of_mem he) old (by simp) hkey.symm
  constructor
  · rintro h earlier old new later hsplit ⟨word, hmem, hword⟩
    have he : (old, new) ∈ key_map.entries := by
      refine horder.mem_iff.mp ?_
      rw [hsplit]
      simp
    have hafter := h word hmem
    rw [newWord_of_mem hcerts he hword, hsplit,
      wordAfter_split hword (hearlier earlier old new later hsplit)] at hafter
    exact hafter
  · intro h word hmem
    by_cases hold : ∃ e ∈ order.entries, word.map Char.toLower = hexOf world e.1
    · obtain ⟨⟨old, new⟩, he, hword⟩ := hold
      obtain ⟨earlier, later, hsplit⟩ := List.append_of_mem he
      rw [newWord_of_mem hcerts (horder.mem_iff.mp he) hword, hsplit,
        wordAfter_split hword (hearlier earlier old new later hsplit)]
      exact h earlier old new later hsplit ⟨word, hmem, hword⟩
    · rw [wordAfter_of_ne fun e he heq => hold ⟨e, he, heq⟩,
        newWord_of_ne fun e he heq => hold ⟨e, horder.mem_iff.mpr he, heq⟩]

/-- In every order that returns the certificates are replaced at once, if and only if every such
order is stable. -/
theorem replaceCerts_iff
    (hword : ∀ c, c.isAlphanum = true → world.isWord c = true)
    (hcerts : HasCertificates world key_map) (data : Str) :
    (∀ order result, order.entries.Perm key_map.entries →
        replaceCerts world order data = .ok result →
          result = simultaneous world key_map data) ↔
      ∀ order, order.entries.Perm key_map.entries →
        (∃ result, replaceCerts world order data = .ok result) →
          Stable world order.entries data := by
  have hone : ∀ order result, order.entries.Perm key_map.entries →
      replaceCerts world order data = .ok result →
        (result = simultaneous world key_map data ↔ Stable world order.entries data) := by
    intro order result horder hrun
    obtain ⟨data', hloop, hruns⟩ := foldlM_replaceCert hword hcerts
      (fun e he => horder.mem_iff.mp he) data
    obtain rfl : data' = result := by
      rw [replaceCerts, hloop] at hrun
      obtain ⟨data₁, hdata, hrest⟩ := Loop.bind_eq_ok.mp hrun
      cases hdata
      split at hrest
      · cases hrest
      · split_ifs at hrest
        exact Except.ok.inj hrest
    rw [← replaced_iff_stable hcerts horder]
    constructor
    · intro heq word hmem
      rw [heq, runs_simultaneous hword hcerts] at hruns
      exact (List.map_inj_left.mp hruns word hmem).symm
    · intro h
      have htext : (runs world.isWord data').flatten = data' := List.flatten_splitBy _ _
      rw [← htext, hruns, List.map_congr_left h, simultaneous]
  constructor
  · rintro h order horder ⟨result, hrun⟩
    exact (hone order result horder hrun).mp (h order result horder hrun)
  · intro h order result horder hrun
    exact (hone order result horder hrun).mpr (h order horder ⟨result, hrun⟩)

end Words

section Samples

def samplePem (body : String) : Str :=
  ("-----BEGIN CERTIFICATE-----\n" ++ body ++ "\n-----END CERTIFICATE-----\n").toList

def sampleText (hex : String) : Str :=
  ("<policy><signer signature=\"" ++ hex ++ "\"/></policy>").toList

/-- Three certificates, and documents with one signer. -/
def sampleWorld : World where
  files := fun path => ([("a.x509.pem", "QUFB"), ("b.x509.pem", "QkJC"), ("c.x509.pem", "Q0ND")].find?
    fun e => path = e.1.toList).map fun e => samplePem e.2
  isWord := fun c => c.isAlphanum || c == '_'
  signatures := fun text => some [(text.drop 27).takeWhile fun c => c != '"']

def sampleKeys : List Str :=
  [['a'], ['b'], ['c']]

/-- The certificate of `c` becomes that of `a`, which becomes that of `b`. -/
def chainCerts : OrderedDict Str Str :=
  (OrderedDict.set OrderedDict.empty ['c'] ['a']).set ['a'] ['b']

/-- The two keys change places. -/
def swapMap : OrderedDict Str Str :=
  (OrderedDict.set OrderedDict.empty ['a'] ['b']).set ['b'] ['a']

theorem sample_hasCertificates
    {key_map : OrderedDict Str Str}
    (hkeys : ∀ e ∈ key_map.entries, e.1 ∈ sampleKeys ∧ e.2 ∈ sampleKeys) :
    HasCertificates sampleWorld key_map := by
  have hmem : ∀ key, Mentioned key_map key → key ∈ sampleKeys := by
    rintro key ⟨e, he, rfl | rfl⟩
    · exact (hkeys e he).1
    · exact (hkeys e he).2
  have hpresent : ∀ key ∈ sampleKeys,
      (certificate sampleWorld key).any (fun cert => cert ≠ []) = true := by decide +kernel
  have hdistinct : ∀ key ∈ sampleKeys, ∀ key' ∈ sampleKeys,
      certificate sampleWorld key = certificate sampleWorld key' → key = key' := by
    decide +kernel
  constructor
  · intro key hkey
    simpa [Option.any_eq_true] using hpresent key (hmem key hkey)
  · exact fun key key' hkey hkey' => hdistinct key (hmem key hkey) key' (hmem key' hkey')

/-- Only `a` occurs in the text, so that the entry for it is the last one that changes it. -/
theorem replaceCerts_chain :
    sampleText "424242" = simultaneous sampleWorld chainCerts (sampleText "414141") := by
  have hword : ∀ c : Char, c.isAlphanum = true → sampleWorld.isWord c = true := by
    intro c hc
    exact Bool.or_eq_true_iff.mpr (Or.inl hc)
  refine (replaceCerts_iff hword (sample_hasCertificates (by decide)) (sampleText "414141")).mpr
    (fun order horder _ => ?_) chainCerts _ (List.Perm.refl _) (by decide +kernel)
  have horders : order.entries ∈ chainCerts.entries.permutations' :=
    List.mem_permutations'.mpr horder
  have hstable : ∀ entries ∈ chainCerts.entries.permutations', ∀ k < 2,
      ∀ e ∈ entries[k]?, (∃ run ∈ runs sampleWorld.isWord (sampleText "414141"),
        run.map Char.toLower = hexOf sampleWorld e.1) →
      follow sampleWorld (entries.drop (k + 1)) (hexOf sampleWorld e.2) =
        hexOf sampleWorld e.2 := by decide +kernel
  rintro earlier old new later hsplit hoccurs
  have hlength := horder.length_eq
  rw [hsplit, List.length_append, List.length_cons] at hlength
  have hlater := hstable _ horders earlier.length
    (by change _ = 2 at hlength; omega) (old, new) (by rw [hsplit]; simp) hoccurs
  rwa [hsplit, List.drop_length_add_append] at hlater

/-- The new certificate of `a` is replaced again when the keys change places. -/
theorem replaceCerts_swap :
    HasCertificates sampleWorld swapMap ∧
      replaceCerts sampleWorld swapMap (sampleText "414141") = .ok (sampleText "414141") ∧
      simultaneous sampleWorld swapMap (sampleText "414141") = sampleText "424242" :=
  ⟨sample_hasCertificates (by decide), by decide +kernel, by decide +kernel⟩

end Samples

end SignTargetFilesApks
end AndroidBuild
