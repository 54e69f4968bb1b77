/-
`lib/ustar.c`: composing and parsing the headers of a tar archive.

# Reading the model

A header is its 512 bytes, indexed by offset; `Field` gives the offset and
size of each member of the packed `struct ustar_header`. A file name is a
C string, so its bytes carry the proof that none of them is the
terminator. `none` from `ustarMakeHeader` is a failed assertion, and the
error of the inner result the line printed before `false` is returned;
`ustarParseHeader` returns the source's message on failure.

# Shape of the argument

- `field_store`, `field_store_ne`: what a field holds after a store into
  it, and after a store into another one. A composed header is a chain of
  stores, so every field of it is read off by these two.
- `parseOctalField_digits`: the parser reads back the digits that
  `snprintf` printed, whatever stands behind the terminator.
- `calculateChksum_store`: the checksum does not look at its own field, so
  the value stored there is still the checksum of the header it is in.
- `strip` is idempotent, so stripping again on the parser's side gives the
  name that was stored.
-/
import Pintos.Data.Stdio

namespace Pintos.Ustar

open Stdio List

-- ==== layout

/-- A member of `struct ustar_header`. -/
structure Field where
  start : Nat
  size : Nat

def headerSize : Nat := 512

namespace Field

def name : Field := ⟨0, 100⟩
def mode : Field := ⟨100, 8⟩
def uid : Field := ⟨108, 8⟩
def gid : Field := ⟨116, 8⟩
def fileSize : Field := ⟨124, 12⟩
def mtime : Field := ⟨136, 12⟩
def chksum : Field := ⟨148, 8⟩
def typeflag : Field := ⟨156, 1⟩
def magic : Field := ⟨257, 6⟩
def version : Field := ⟨263, 2⟩
def uname : Field := ⟨265, 32⟩
def gname : Field := ⟨297, 32⟩
-- `prefix` is a keyword here
def namePrefix : Field := ⟨345, 155⟩

def Disjoint (f g : Field) : Prop := f.start + f.size ≤ g.start ∨ g.start + g.size ≤ f.start

instance (f g : Field) : Decidable (f.Disjoint g) := inferInstanceAs (Decidable (_ ∨ _))

theorem Disjoint.symm {f g : Field} (h : f.Disjoint g) : g.Disjoint f := Or.symm h

end Field

/-- The bytes of a header by offset. -/
abbrev Header := Nat → UInt8

/-- The bytes of a member. -/
def Header.field (h : Header) (f : Field) : Bytes :=
  (List.range f.size).map fun i => h (f.start + i)

/-- The bytes `bs` written at the start of a member. -/
def Header.store (h : Header) (f : Field) (bs : Bytes) : Header := fun i =>
  if f.start ≤ i ∧ i < f.start + bs.length then bs.getD (i - f.start) 0
  else h i

/-- `strlcpy` into a buffer of `size` bytes: what it writes. -/
def strlcpy (src : Bytes) (size : Nat) : Bytes :=
  if 0 < size then src.take (size - 1) ++ [0] else []

/-- The C string at the start of a buffer. -/
def cString (bs : Bytes) : Bytes := bs.takeWhile (· ≠ 0)

-- ==== the types

/-- `enum ustar_type`. -/
inductive UstarType where
  | regular | directory | eof
  deriving DecidableEq

/-- The enumerator's value as a `char`. -/
def UstarType.toByte : UstarType → UInt8
  | .regular => ch '0'
  | .directory => ch '5'
  | .eof => 255

-- ==== the name

/-- The loop condition of `strip_antisocial_prefixes`. -/
def antisocial (fileName : Bytes) : Bool :=
  (lit "/").isPrefixOf fileName || (lit "./").isPrefixOf fileName || (lit "../").isPrefixOf fileName

/-- `strchr (file_name, '/') + 1`. -/
def afterSlash (fileName : Bytes) : Bytes := (fileName.dropWhile (· ≠ ch '/')).tail

/-- The loop of `strip_antisocial_prefixes`; each round drops a byte. -/
def stripLoop : Nat → Bytes → Bytes
  | 0, fileName => fileName
  | n + 1, fileName =>
    if antisocial fileName then stripLoop n (afterSlash fileName)
    else fileName

/-- `strip_antisocial_prefixes`. -/
def strip (fileName : Bytes) : Bytes :=
  let fileName := stripLoop fileName.length fileName
  if fileName = [] ∨ fileName = lit ".." then lit "." else fileName

-- ==== the checksum

/-- The byte that the checksum counts at an offset. -/
def chksumByte (h : Header) (i : Nat) : UInt8 :=
  if Field.chksum.start ≤ i ∧ i < Field.chksum.start + Field.chksum.size
  then ch ' ' else h i

/-- `calculate_chksum`, in `unsigned int` arithmetic. -/
def calculateChksum (h : Header) : Nat :=
  (List.range headerSize).foldl (fun chksum i => (chksum + (chksumByte h i).toNat) % 2 ^ 32) 0

-- ==== composing

/-- The permissions of a new entry. -/
def modeOf : UstarType → Nat
  | .regular => 0o644
  | _ => 0o755

/-- What `ustar_make_header` stores after the `memset`, in its order. -/
def stores (fileName : Bytes) (type : UstarType) (size : Int) : List (Field × Bytes) :=
  [(.name, strlcpy fileName Field.name.size),
    (.mode, snprintf Field.mode.size (lit "%07o") [.int (modeOf type)]),
    (.uid, strlcpy (lit "0000000") Field.uid.size),
    (.gid, strlcpy (lit "0000000") Field.gid.size),
    (.fileSize, snprintf Field.fileSize.size (lit "%011o") [.int size]),
    (.mtime, snprintf Field.fileSize.size (lit "%011o") [.int 1136102400]),
    (.typeflag, [type.toByte]),
    (.magic, strlcpy (lit "ustar") Field.magic.size),
    (.version, [ch '0', ch '0']),
    (.gname, strlcpy (lit "root") Field.gname.size),
    (.uname, strlcpy (lit "root") Field.uname.size)]

/-- A header after a sequence of stores. -/
def Header.storeAll (h : Header) (ws : List (Field × Bytes)) : Header :=
  ws.foldl (fun h w => h.store w.1 w.2) h

/-- A composed header before its checksum is filled in. -/
def fillIn (fileName : Bytes) (type : UstarType) (size : Int) : Header :=
  Header.storeAll (fun _ => 0) (stores fileName type size)

/-- A header with its checksum filled in. -/
def withChksum (h : Header) : Header :=
  h.store .chksum (snprintf Field.chksum.size (lit "%07o") [.int (calculateChksum h)])

/-- `ustar_make_header`. -/
def ustarMakeHeader (fileName : Bytes) (type : UstarType) (size : Int) :
    Option (Except Bytes Header) :=
  if type = .regular ∨ type = .directory then
    let fileName := strip fileName
    if 99 < fileName.length then
      some (.error (vprintf (lit "%s: file name too long\n") [.str (some fileName)]))
    else some (.ok (withChksum (fillIn fileName type size)))
  else none

-- ==== parsing

/-- The loop of `parse_octal_field` over the rest of the field. -/
def octalLoop : Bytes → Nat → Nat → Option Nat
  | [], _, _ => none
  | c :: rest, ofs, value =>
    if ch '0' ≤ c ∧ c ≤ ch '7' then
      if (2 ^ 32 - 1) / 8 < value then none
      else octalLoop rest (ofs + 1) ((c - ch '0').toNat + value * 8)
    else if c = ch ' ' ∨ c = 0 then if 0 < ofs then some value else none
    else none

/-- `parse_octal_field`. -/
def parseOctalField (s : Bytes) : Option Nat := octalLoop s 0 0

/-- `is_all_zeros` over a whole header. -/
def isAllZeros (h : Header) : Bool := (List.range headerSize).all fun i => h i == 0

/-- What a successful parse stores: name, type and size. -/
structure Entry where
  fileName : Option Bytes
  type : UstarType
  size : Nat
  deriving DecidableEq

/-- `ustar_parse_header`. -/
def ustarParseHeader (h : Header) : Except String Entry :=
  if isAllZeros h then .ok ⟨none, .eof, 0⟩
  else if h.field .magic ≠ lit "ustar" ++ [0] then
    .error "not a ustar archive"
  else if h.field .version ≠ [ch '0', ch '0'] then
    .error "invalid ustar version"
  else
    match parseOctalField (h.field .chksum) with
    | none => .error "corrupt chksum field"
    | some chksum =>
      if chksum ≠ calculateChksum h then .error "checksum mismatch"
      else if h (Field.name.start + Field.name.size - 1) ≠ 0 ∨
          h Field.namePrefix.start ≠ 0 then
        .error "file name too long"
      else
        let fileName := some (strip (cString (h.field .name)))
        if h Field.typeflag.start = UstarType.regular.toByte then
          match parseOctalField (h.field .fileSize) with
          | none => .error "corrupt file size field"
          | some size =>
            if 2 ^ 31 - 1 < size then .error "file too large"
            else .ok ⟨fileName, .regular, size⟩
        else if h Field.typeflag.start = UstarType.directory.toByte then
          .ok ⟨fileName, .directory, 0⟩
        else .error "unimplemented file type"

-- ==== the fields

/-- A member after a store into it. -/
theorem Header.field_store (h : Header) (f : Field) (bs : Bytes) (hfit : bs.length ≤ f.size) :
    (h.store f bs).field f = bs ++ (h.field f).drop bs.length := by
  apply ext_getElem
  · simp [Header.field]
    omega
  · intro i hi _
    by_cases hlt : i < bs.length
    · simp [Header.field, Header.store, hlt, getElem_append_left]
    · have hsum : bs.length + (i - bs.length) = i := by omega
      simp [Header.field, Header.store, hlt, hsum, getElem_append_right (Nat.le_of_not_lt hlt)]

variable {f : Field} {bs s : Bytes}

variable {g : Field} {i : Nat} {ws : List (Field × Bytes)}

/-- A member after a store into another one. -/
theorem Header.field_store_ne (h : Header) (hfit : bs.length ≤ g.size) (hd : f.Disjoint g) :
    (h.store g bs).field f = h.field f := by
  refine map_congr_left fun i hi => if_neg fun hin => ?_
  have hlt := mem_range.mp hi
  obtain hd | hd := hd <;> omega

theorem strlcpy_length_le (src : Bytes) (size : Nat) : (strlcpy src size).length ≤ size := by
  unfold strlcpy
  split
  · simp only [length_append, length_take, length_singleton]
    omega
  · exact Nat.zero_le _

theorem snprintf_length_le (bufSize : Nat) (format : Bytes)
    (args : List Arg) : (snprintf bufSize format args).length ≤ bufSize := by
  unfold snprintf
  split
  · simp only [length_append, length_take, length_singleton]
    omega
  · exact Nat.zero_le _

/-- A byte of a header by the member it is in. -/
theorem Header.apply_eq (h : Header) (f : Field)
    (hi : i < f.size) : h (f.start + i) = (h.field f).getD i 0 := by
  simp [Header.field, hi]

-- ==== octal numbers

theorem octalDigit_range {d : Nat} (hd : d < 8) :
    (ch '0' ≤ octalDigit d ∧ octalDigit d ≤ ch '7') ∧ (octalDigit d - ch '0').toNat = d := by
  have hall : ∀ d < 8, (ch '0' ≤ octalDigit d ∧ octalDigit d ≤ ch '7') ∧
      (octalDigit d - ch '0').toNat = d := by decide
  exact hall d hd

/-- Reading the digits of a number, most significant first. -/
def readDigits (ds : List Nat) (value : Nat) : Nat := ds.foldl (fun value d => d + value * 8) value

theorem le_readDigits (ds : List Nat) (value : Nat) : value ≤ readDigits ds value := by
  induction ds generalizing value with
  | nil => exact le_refl value
  | cons d ds ih =>
    have := ih (d + value * 8)
    simp only [readDigits, foldl_cons] at this ⊢
    omega

theorem readDigits_reverse (ds : List Nat) : readDigits ds.reverse 0 = Nat.ofDigits 8 ds := by
  rw [readDigits, foldl_reverse, Nat.ofDigits_eq_foldr]
  simp [mul_comm]

/-- The loop over printed digits up to the terminator. No overflow: what
has been read so far is at most an eighth of the final value. -/
theorem octalLoop_digits (ds : List Nat) (rest : Bytes) (ofs value : Nat) (hds : ∀ d ∈ ds, d < 8)
    (hofs : 0 < ofs + ds.length) (hword : readDigits ds value < 2 ^ 32) :
    octalLoop (ds.map octalDigit ++ 0 :: rest) ofs value = some (readDigits ds value) := by
  induction ds generalizing ofs value with
  | nil =>
    have hnot : ¬ (ch '0' ≤ (0 : UInt8) ∧ (0 : UInt8) ≤ ch '7') := by decide
    have hpos : 0 < ofs := by simpa using hofs
    rw [map_nil, nil_append, octalLoop, if_neg hnot, if_pos (.inr rfl), if_pos hpos]
    rfl
  | cons d ds ih =>
    have hd := octalDigit_range (hds d mem_cons_self)
    have hfinal : readDigits (d :: ds) value = readDigits ds (d + value * 8) := rfl
    have hroom : ¬ (2 ^ 32 - 1) / 8 < value := by
      have := le_readDigits ds (d + value * 8)
      omega
    rw [map_cons, cons_append, octalLoop, if_pos hd.1, if_neg hroom, hd.2, hfinal]
    refine ih (ofs + 1) _ (fun e he => hds e (mem_cons_of_mem d he)) (by omega) (by omega)

/-- The parser reads back what `snprintf` printed. -/
theorem parseOctalField_digits {width value : Nat} (rest : Bytes)
    (hw : 0 < width) (hfit : value < 8 ^ width) (hword : value < 2 ^ 32) :
    parseOctalField (((Nat.digitsAppend 8 width value).map octalDigit).reverse
      ++ [0] ++ rest) = some value := by
  have hlen := Nat.length_digitsAppend (by decide : 1 < 8) width hfit
  have hvalue : readDigits (Nat.digitsAppend 8 width value).reverse 0 = value := by
    rw [readDigits_reverse, Nat.digitsAppend,
      Nat.ofDigits_append_replicate_zero, Nat.ofDigits_digits]
  have h := octalLoop_digits (Nat.digitsAppend 8 width value).reverse rest
    0 0 (fun d hd => Nat.lt_of_mem_digitsAppend (by decide) width d (mem_reverse.mp hd))
    (by rw [length_reverse, hlen]; omega) (by rw [hvalue]; exact hword)
  rw [hvalue] at h
  rw [parseOctalField, ← map_reverse, append_assoc]
  exact h

-- ==== the checksum

theorem foldl_chksum_le (h : Header) (is : List Nat) (chksum : Nat) :
    is.foldl (fun chksum i => (chksum + (chksumByte h i).toNat) % 2 ^ 32)
      chksum ≤ chksum + 255 * is.length := by
  induction is generalizing chksum with
  | nil => simp
  | cons i is ih =>
    have hbyte : (chksumByte h i).toNat < 256 := (chksumByte h i).toNat_lt
    have := ih ((chksum + (chksumByte h i).toNat) % 2 ^ 32)
    rw [foldl_cons, length_cons]
    omega

/-- The checksum fits its field. -/
theorem calculateChksum_lt (h : Header) : calculateChksum h < 8 ^ 7 := by
  have := foldl_chksum_le h (List.range headerSize) 0
  rw [length_range] at this
  have hbound : 0 + 255 * headerSize < 8 ^ 7 := by decide
  exact lt_of_le_of_lt this hbound

/-- The checksum reads its own field as spaces, whatever it holds. -/
theorem calculateChksum_store (h : Header) (hfit : bs.length ≤ Field.chksum.size) :
    calculateChksum (h.store .chksum bs) = calculateChksum h := by
  have hbyte : chksumByte (h.store .chksum bs) = chksumByte h := by
    funext i
    unfold chksumByte
    split
    · rfl
    · rename_i hout
      refine if_neg fun hin => hout ⟨hin.1, ?_⟩
      omega
  rw [calculateChksum, hbyte]
  rfl

-- ==== stripping

/-- A name the loop goes on with is a prefix up to its first slash, and
the rest. -/
theorem antisocial_cases (h : antisocial s = true) :
    ∃ p, p ∈ [lit "/", lit "./", lit "../"] ∧ s = p ++ afterSlash s := by
  have hslash p (hp : p ∈ [lit "/", lit "./", lit "../"]) t :
      p ++ t = p ++ afterSlash (p ++ t) := by
    simp only [mem_cons, not_mem_nil, or_false] at hp
    obtain rfl | rfl | rfl := hp <;> rfl
  simp only [antisocial, Bool.or_eq_true, isPrefixOf_iff_prefix] at h
  obtain (⟨t, rfl⟩ | ⟨t, rfl⟩) | ⟨t, rfl⟩ := h
  · exact ⟨lit "/", by simp, hslash _ (by simp) t⟩
  · exact ⟨lit "./", by simp, hslash _ (by simp) t⟩
  · exact ⟨lit "../", by simp, hslash _ (by simp) t⟩

theorem afterSlash_length_lt (h : antisocial s = true) : (afterSlash s).length < s.length := by
  obtain ⟨p, hp, hs⟩ := antisocial_cases h
  have hpos : ∀ p ∈ [lit "/", lit "./", lit "../"], 0 < p.length := by decide
  have := hpos p hp
  have hlen := congrArg List.length hs
  rw [length_append] at hlen
  omega

/-- The loop runs until the name is harmless. -/
theorem antisocial_stripLoop (n : Nat) (s : Bytes) (hn : s.length ≤ n) :
    antisocial (stripLoop n s) = false := by
  induction n generalizing s with
  | zero =>
    have h0 : s = [] := length_eq_zero_iff.mp (Nat.le_zero.mp hn)
    subst h0
    decide
  | succ n ih =>
    unfold stripLoop
    split
    · rename_i h
      have := afterSlash_length_lt h
      exact ih _ (by omega)
    · rename_i h
      exact Bool.eq_false_iff.mpr h

theorem stripLoop_of_harmless (h : antisocial s = false) (n : Nat) : stripLoop n s = s := by
  cases n with
  | zero => rfl
  | succ n => simp [stripLoop, h]

theorem mem_of_mem_stripLoop {c : UInt8} (n : Nat) (s : Bytes) (h : c ∈ stripLoop n s) : c ∈ s := by
  induction n generalizing s with
  | zero => exact h
  | succ n ih =>
    unfold stripLoop at h
    split at h
    · have hc := ih _ h
      exact (dropWhile_sublist _).mem (mem_of_mem_tail hc)
    · exact h

theorem antisocial_strip (s : Bytes) : antisocial (strip s) = false := by
  unfold strip
  dsimp only
  split
  · decide
  · exact antisocial_stripLoop s.length s (le_refl _)

theorem strip_ne (s : Bytes) : strip s ≠ [] ∧ strip s ≠ lit ".." := by
  unfold strip
  dsimp only
  split
  · decide
  · rename_i h
    exact not_or.mp h

theorem strip_idem (s : Bytes) : strip (strip s) = strip s := by
  have hloop := stripLoop_of_harmless (antisocial_strip s) (strip s).length
  have hne := strip_ne s
  rw [strip, hloop]
  exact if_neg (not_or.mpr hne)

theorem nul_not_mem_strip (h : 0 ∉ s) : 0 ∉ strip s := by
  unfold strip
  dsimp only
  split
  · decide
  · exact fun h0 => h (mem_of_mem_stripLoop _ _ h0)

-- ==== a composed header

theorem Header.field_storeAll_ne (h : Header) (hfit : ∀ w ∈ ws, w.2.length ≤ w.1.size)
    (hd : ∀ g ∈ ws.map Prod.fst, f.Disjoint g) : (h.storeAll ws).field f = h.field f := by
  induction ws generalizing h with
  | nil => rfl
  | cons w ws ih =>
    rw [map_cons, forall_mem_cons] at hd
    rw [forall_mem_cons] at hfit
    exact (ih (h.store w.1 w.2) hfit.2 hd.2).trans (h.field_store_ne hfit.1 hd.1)

/-- Stores into different members do not disturb each other. -/
theorem Header.field_storeAll (h : Header) (hfit : ∀ w ∈ ws, w.2.length ≤ w.1.size)
    (hd : (ws.map Prod.fst).Pairwise Field.Disjoint) (hw : (f, bs) ∈ ws) : (h.storeAll ws).field f =
    bs ++ (h.field f).drop bs.length := by
  induction ws generalizing h with
  | nil => cases hw
  | cons w ws ih =>
    rw [map_cons, pairwise_cons] at hd
    rw [forall_mem_cons] at hfit
    obtain heq | hw := mem_cons.mp hw
    · subst heq
      exact ((h.store f bs).field_storeAll_ne hfit.2 hd.1).trans (h.field_store f bs hfit.1)
    · have hne : f.Disjoint w.1 := (hd.1 f (mem_map_of_mem hw)).symm
      have h' := ih (h.store w.1 w.2) hfit.2 hd.2 hw
      rw [h.field_store_ne hfit.1 hne] at h'
      exact h'

theorem field_zero (f : Field) : Header.field (fun _ => 0) f = List.replicate f.size 0 := by
  simp [Header.field]

variable {type : UstarType} {size : Nat}

theorem stores_fit : ∀ w ∈ stores s type size, w.2.length ≤ w.1.size := by
  simp only [stores, forall_mem_cons]
  exact ⟨strlcpy_length_le _ _, snprintf_length_le _ _ _, strlcpy_length_le _ _,
    strlcpy_length_le _ _, snprintf_length_le _ _ _, snprintf_length_le _ _ _, le_refl 1,
    strlcpy_length_le _ _, le_refl 2, strlcpy_length_le _ _, strlcpy_length_le _ _, nofun⟩

theorem stores_disjoint : ((stores s type size).map Prod.fst).Pairwise Field.Disjoint := by
  change [Field.name, .mode, .uid, .gid, .fileSize, .mtime, .typeflag,
    .magic, .version, .gname, .uname].Pairwise Field.Disjoint
  decide

/-- A member of a composed header: the bytes stored, then zeros. -/
theorem fillIn_field {bs : Bytes} (hw : (f, bs) ∈ stores s type size) : (fillIn s type size).field f
    = bs ++ List.replicate (f.size - bs.length) 0 := by
  rw [fillIn, Header.field_storeAll _ stores_fit stores_disjoint hw, field_zero, drop_replicate]

/-- The checksum disturbs no other member. -/
theorem withChksum_field {h : Header}
    (hd : f.Disjoint .chksum) : (withChksum h).field f = h.field f :=
  h.field_store_ne (snprintf_length_le _ _ _) hd

/-- The parser finds the checksum of the header it reads. -/
theorem parse_chksum (h : Header) :
    parseOctalField ((withChksum h).field .chksum) = some (calculateChksum (withChksum h)) := by
  have hlt := calculateChksum_lt h
  have hword : calculateChksum h < 2 ^ 32 := lt_trans hlt (by decide)
  have hsame : calculateChksum (withChksum h) = calculateChksum h :=
    calculateChksum_store h (snprintf_length_le _ _ _)
  have hprint := snprintf_octal (calculateChksum h) (vprintf_07o _)
    (by decide) (by decide) hlt hword
  rw [hsame, withChksum, h.field_store .chksum _ (snprintf_length_le _ _ _)]
  change parseOctalField (snprintf (7 + 1) _ _ ++ _) = _
  rw [hprint]
  exact parseOctalField_digits _ (by decide) hlt hword

theorem parse_size (hsize : size < 2 ^ 31) :
    parseOctalField ((fillIn s type size).field .fileSize) = some size := by
  have hlt : size < 8 ^ 11 := lt_trans hsize (by decide)
  have hword : size < 2 ^ 32 := lt_trans hsize (by decide)
  have hprint := snprintf_octal size (vprintf_011o _) (by decide) (by decide) hlt hword
  have hmem : (Field.fileSize, snprintf (11 + 1) (lit "%011o") [.int size]) ∈
      stores s type size := by
    simp [stores, Field.fileSize]
  rw [fillIn_field hmem, hprint]
  exact parseOctalField_digits _ (by decide) hlt hword

theorem fillIn_name (hs : s.length ≤ 99) :
    (fillIn s type size).field .name = s ++ List.replicate (100 - s.length) 0 := by
  have hcopy : strlcpy s Field.name.size = s ++ [0] := by
    have htake : s.take (Field.name.size - 1) = s := take_of_length_le hs
    rw [strlcpy, if_pos (by decide), htake]
  have hmem : (Field.name, s ++ [0]) ∈ stores s type size := by
    rw [← hcopy]
    exact mem_cons_self
  have hpad : 100 - s.length = 100 - (s.length + 1) + 1 := by omega
  rw [fillIn_field hmem, hpad, replicate_succ, append_assoc, length_append]
  rfl

theorem cString_padded (hs : 0 ∉ s) (n : Nat) : cString (s ++ List.replicate n 0) = s := by
  have hall c (hc : c ∈ s) : decide (c ≠ 0) = true := by
    exact decide_eq_true fun h0 => hs (h0 ▸ hc)
  rw [cString, takeWhile_append_of_pos hall]
  cases n <;> simp [replicate_succ]

/-- The name field ends in a zero byte. -/
theorem name_terminated (hs : s.length ≤ 99) :
    (withChksum (fillIn s type size)) (Field.name.start + Field.name.size - 1) = 0 := by
  have hfield : (withChksum (fillIn s type size)).field .name = _ :=
    (withChksum_field (by decide)).trans (fillIn_name hs)
  have h := (withChksum (fillIn s type size)).apply_eq .name (i := 99) (by decide)
  rw [hfield] at h
  refine h.trans ?_
  rw [getD_eq_getElem?_getD, getElem?_append_right hs, getElem?_replicate]
  split <;> rfl

theorem prefix_empty : (withChksum (fillIn s type size)) Field.namePrefix.start = 0 := by
  have hfield : (withChksum (fillIn s type size)).field .namePrefix = List.replicate 155 0 := by
    rw [withChksum_field (by decide), fillIn, Header.field_storeAll_ne _ stores_fit, field_zero]
    · rfl
    · change ∀ g ∈ [Field.name, .mode, .uid, .gid, .fileSize, .mtime, .typeflag, .magic, .version,
        .gname, .uname], Field.namePrefix.Disjoint g
      decide
  have h := (withChksum (fillIn s type size)).apply_eq .namePrefix (i := 0) (by decide)
  rw [hfield] at h
  exact h

/-- The members with the same bytes in every header. -/
theorem header_magic : (withChksum (fillIn s type size)).field .magic = lit "ustar" ++ [0] := by
  have hmem : (Field.magic, lit "ustar" ++ [0]) ∈ stores s type size := by
    have hcopy : strlcpy (lit "ustar") Field.magic.size = lit "ustar" ++ [0] := by decide
    simp [stores, hcopy]
  rw [withChksum_field (by decide), fillIn_field hmem]
  decide

theorem header_version : (withChksum (fillIn s type size)).field .version = [ch '0', ch '0'] := by
  have hmem : (Field.version, [ch '0', ch '0']) ∈ stores s type size := by simp [stores]
  rw [withChksum_field (by decide), fillIn_field hmem]
  rfl

theorem header_typeflag : (withChksum (fillIn s type size)) Field.typeflag.start = type.toByte := by
  have hmem : (Field.typeflag, [type.toByte]) ∈ stores s type size := by simp [stores]
  have h := (withChksum (fillIn s type size)).apply_eq .typeflag (i := 0) (by decide)
  rw [withChksum_field (by decide), fillIn_field hmem] at h
  exact h

/-- A composed header is not the end of an archive. -/
theorem not_isAllZeros : isAllZeros (withChksum (fillIn s type size)) = false := by
  have h := (withChksum (fillIn s type size)).apply_eq .magic (i := 0) (by decide)
  rw [header_magic] at h
  refine Bool.eq_false_iff.mpr fun hall => ?_
  have h0 := all_eq_true.mp hall (Field.magic.start + 0) (mem_range.mpr (by decide))
  rw [h] at h0
  exact absurd h0 (by decide)

/-- The parser takes a composed header apart again. -/
theorem parse_withChksum (htype : type = .regular ∨ type = .directory)
    (hs : s.length ≤ 99) (hnul : 0 ∉ s) (hsize : size < 2 ^ 31) :
    ustarParseHeader (withChksum (fillIn s type size)) =
      .ok ⟨some (strip s), type, if type = .regular then size else 0⟩ := by
  have hname : cString ((withChksum (fillIn s type size)).field .name) = s := by
    rw [withChksum_field (by decide), fillIn_name hs, cString_padded hnul]
  have hlong : ¬ ((withChksum (fillIn s type size)) (Field.name.start + Field.name.size - 1) ≠ 0 ∨
      (withChksum (fillIn s type size)) Field.namePrefix.start ≠ 0) := by
    rw [name_terminated hs, prefix_empty]
    simp
  rw [ustarParseHeader, not_isAllZeros, if_neg Bool.false_ne_true,
    if_neg (not_not.mpr header_magic), if_neg (not_not.mpr header_version), parse_chksum]
  dsimp only
  rw [if_neg (not_not.mpr rfl), if_neg hlong, hname, header_typeflag,
    withChksum_field (by decide), parse_size hsize]
  obtain rfl | rfl := htype
  · have hmax : size ≤ 2147483647 := by omega
    simp [hmax]
  · have hne : UstarType.directory.toByte ≠ UstarType.regular.toByte := by decide
    simp [hne]

-- ==== the result

theorem vprintf_too_long (s : Bytes) :
    vprintf (lit "%s: file name too long\n") [.str (some s)] =
      s ++ lit ": file name too long\n" := by
  change formatString s ⟨{}, 0, -1, .int⟩ ++ lit ": file name too long\n" = _
  simp [formatString]

/-- A C string: its bytes, none of them the terminator. -/
structure CString where
  bytes : Bytes
  nul_not_mem : 0 ∉ bytes

/-- What the format promises: headers round-trip, stripping is idempotent
and leaves no dangerous name, and a name that does not fit is refused. -/
theorem header_round_trip (fileName : CString) (type : UstarType)
    (htype : type = .regular ∨ type = .directory) (size : Int)
    (hsize : 0 ≤ size ∧ size ≤ 2 ^ 31 - 1) : ((strip fileName.bytes).length ≤ 99 →
      ∃ h, ustarMakeHeader fileName.bytes type size = some (.ok h) ∧
        ustarParseHeader h = .ok ⟨some (strip fileName.bytes), type,
          if type = .regular then size.toNat else 0⟩) ∧
    strip (strip fileName.bytes) = strip fileName.bytes ∧
    strip fileName.bytes ≠ [] ∧
    strip fileName.bytes ≠ lit ".." ∧
    (∀ p ∈ [lit "/", lit "./", lit "../"], ¬ p <+: strip fileName.bytes) ∧
    (99 < (strip fileName.bytes).length →
      ustarMakeHeader fileName.bytes type size =
        some (.error (strip fileName.bytes ++ lit ": file name too long\n"))) := by
  obtain ⟨n, rfl⟩ := Int.eq_ofNat_of_zero_le hsize.1
  refine ⟨fun hlen => ?_, strip_idem _, (strip_ne _).1, (strip_ne _).2, ?_, fun hlen => ?_⟩
  · refine ⟨_, by rw [ustarMakeHeader, if_pos htype, if_neg (by omega)], ?_⟩
    have h : ustarParseHeader (withChksum (fillIn (strip fileName.bytes) type n)) = _ :=
      parse_withChksum htype hlen (nul_not_mem_strip fileName.nul_not_mem) (by omega)
    rw [strip_idem] at h
    exact h
  · intro p hp hpre
    have hsafe := antisocial_strip fileName.bytes
    simp only [antisocial, Bool.or_eq_false_iff] at hsafe
    simp only [mem_cons, not_mem_nil, or_false] at hp
    have hyes := isPrefixOf_iff_prefix.mpr hpre
    obtain rfl | rfl | rfl := hp
    · exact absurd hyes (Bool.eq_false_iff.mp hsafe.1.1)
    · exact absurd hyes (Bool.eq_false_iff.mp hsafe.1.2)
    · exact absurd hyes (Bool.eq_false_iff.mp hsafe.2)
  · rw [ustarMakeHeader, if_pos htype, if_pos hlen, vprintf_too_long]

theorem header_round_trip_at_root : (strip (lit "/../etc")).length ≤ 99 ∧
    ∃ h, ustarMakeHeader (lit "/../etc") .regular 5 = some (.ok h) ∧
      ustarParseHeader h = .ok ⟨some (lit "etc"), .regular, 5⟩ := by
  have hfit : (strip (lit "/../etc")).length ≤ 99 := by decide
  exact ⟨hfit, (header_round_trip ⟨lit "/../etc", by decide⟩ .regular
    (.inl rfl) 5 (by decide)).1 hfit⟩

end Pintos.Ustar
