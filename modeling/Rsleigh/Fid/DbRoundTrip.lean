import Mathlib.Data.List.Basic
import Rsleigh.Fid.Db

namespace Rsleigh.Fid

open Parsing

section Bytes

theorem readLe_writeLe (size value : Nat) (rest : List UInt8) :
    readLe size (writeLe size value ++ rest) = some (value % 256 ^ size,rest) := by
  induction size generalizing value with
  | zero =>
    rw [Nat.pow_zero,Nat.mod_one]
    rfl
  | succ size ih =>
    rw [writeLe,List.cons_append,readLe,ih,Option.map_some]
    have isByte : (UInt8.ofNat value).toNat = value % 256 := UInt8.toNat_ofNat'
    rw [isByte,Nat.pow_succ,Nat.mul_comm (256 ^ size),Nat.mod_mul]

theorem readExact_append {size : Nat} {bytes rest : List UInt8} (short : size ≤ bytes.length) :
    readExact size (bytes ++ rest) = some (bytes.take size,bytes.drop size ++ rest) := by
  unfold readExact
  rw [if_neg (by rw [List.length_append]; omega),List.take_append_of_le_length short,List.drop_append_of_le_length short]

theorem fromUtf8Lossy_asBytes (name : String) : fromUtf8Lossy (asBytes name) = name := by
  unfold fromUtf8Lossy asBytes
  rw [Utf8.decodeLossy_encode,String.ofList_toList]

theorem readName_writeName (name : String) (rest : List UInt8) :
    readName (writeName name ++ rest) =
      some (fromUtf8Lossy ((asBytes name).take ((asBytes name).length % 2 ^ 16)),
        (asBytes name).drop ((asBytes name).length % 2 ^ 16) ++ rest) := by
  unfold readName writeName
  rw [List.append_assoc,readLe_writeLe]
  have short : (asBytes name).length % 256 ^ 2 ≤ (asBytes name).length := Nat.mod_le _ _
  change (readExact _ _).bind _ = _
  rw [readExact_append short]
  rfl

def NameFits (name : String) : Prop := (asBytes name).length < 2 ^ 16

theorem nameCodec : Codec writeName readName NameFits where
  back := by
    intro name rest fits
    rw [readName_writeName,Nat.mod_eq_of_lt fits,List.take_length,List.drop_length,fromUtf8Lossy_asBytes]
    rfl
  fits := by
    intro name rest left accepted
    rw [readName_writeName] at accepted
    have isName := (Prod.mk.inj (Option.some.inj accepted)).1
    have chars : Utf8.decodeLossy ((Utf8.encode name.toList).take ((asBytes name).length % 2 ^ 16)) = name.toList := by
      have same := congrArg String.toList isName
      unfold fromUtf8Lossy at same
      rwa [String.toList_ofList] at same
    have few : (asBytes name).length ≤ (asBytes name).length % 2 ^ 16 + 6 := Utf8.decodeLossy_take chars
    have split := Nat.mod_add_div (asBytes name).length (2 ^ 16)
    unfold NameFits
    omega

theorem readEntry_writeEntry (entry : FidEntry) (rest : List UInt8) :
    readEntry (writeEntry entry ++ rest) =
      (readName (writeName entry.name ++ rest)).map fun (name, rest) => (⟨entry.hash, entry.libId, name⟩,rest) := by
  have full : UInt64.ofNat (entry.hash.full.toNat % 256 ^ 8) = entry.hash.full := by
    rw [Nat.mod_eq_of_lt (show entry.hash.full.toNat < 256 ^ 8 from entry.hash.full.toNat_lt),UInt64.ofNat_toNat]
  have specific : UInt64.ofNat (entry.hash.specific.toNat % 256 ^ 8) = entry.hash.specific := by
    rw [Nat.mod_eq_of_lt (show entry.hash.specific.toNat < 256 ^ 8 from entry.hash.specific.toNat_lt),UInt64.ofNat_toNat]
  have codeUnits : UInt32.ofNat (entry.hash.codeUnits.toNat % 256 ^ 4) = entry.hash.codeUnits := by
    rw [Nat.mod_eq_of_lt (show entry.hash.codeUnits.toNat < 256 ^ 4 from entry.hash.codeUnits.toNat_lt),UInt32.ofNat_toNat]
  have bodyLen : UInt32.ofNat (entry.hash.bodyLen.toNat % 256 ^ 4) = entry.hash.bodyLen := by
    rw [Nat.mod_eq_of_lt (show entry.hash.bodyLen.toNat < 256 ^ 4 from entry.hash.bodyLen.toNat_lt),UInt32.ofNat_toNat]
  have libId : UInt16.ofNat (entry.libId.toNat % 256 ^ 2) = entry.libId := by
    rw [Nat.mod_eq_of_lt (show entry.libId.toNat < 256 ^ 2 from entry.libId.toNat_lt),UInt16.ofNat_toNat]
  unfold readEntry writeEntry
  simp only [List.append_assoc,readLe_writeLe,Option.bind_eq_bind,Option.bind_some,full,specific,codeUnits,bodyLen,libId]
  cases readName (writeName entry.name ++ rest) with
  | none => rfl
  | some _ => rfl

theorem entryCodec : Codec writeEntry readEntry fun entry => NameFits entry.name where
  back := by
    intro entry rest fits
    rw [readEntry_writeEntry,nameCodec.back entry.name rest fits]
    rfl
  fits := by
    intro entry rest left accepted
    rw [readEntry_writeEntry] at accepted
    obtain ⟨⟨name,after⟩,isName,same⟩ := Option.map_eq_some_iff.mp accepted
    have isEntry := congrArg FidEntry.name (Prod.mk.inj same).1
    dsimp only at isEntry
    rw [isEntry] at isName
    exact nameCodec.fits entry.name rest after isName

end Bytes

section Building

-- The database with these libraries and entries: the indexes follow from the entries.
def ofEntries (libs : List String) (entries : List FidEntry) : FidDb :=
  entries.foldl FidDb.insert { FidDb.new with libs := libs }

theorem ofEntries_append (libs : List String) (entries : List FidEntry) (entry : FidEntry) :
    ofEntries libs (entries ++ [entry]) = (ofEntries libs entries).insert entry := List.foldl_append

theorem ofEntries_fields (libs : List String) (entries : List FidEntry) :
    (ofEntries libs entries).libs = libs ∧ (ofEntries libs entries).entries = entries ∧
      ∀ libs', { ofEntries libs entries with libs := libs' } = ofEntries libs' entries := by
  induction entries using List.reverseRecOn with
  | nil => exact ⟨rfl,rfl,fun _ => rfl⟩
  | append_singleton entries entry ih =>
    obtain ⟨isLibs,areEntries,others⟩ := ih
    rw [ofEntries_append]
    refine ⟨isLibs,congrArg (· ++ [entry]) areEntries,fun libs' => ?_⟩
    rw [ofEntries_append,← others libs']
    rfl

-- The library stands at some place, and the id is the place as u16.
def Placed (libs : List String) (library : String) (libId : UInt16) : Prop :=
  ∃ i, libs[i]? = some library ∧ libId = UInt16.ofNat i

structure Built (building : Building) : Prop where
  indexed : building.db = ofEntries building.db.libs building.db.entries
  distinct : building.db.libs.Nodup
  added : ∀ pair ∈ building.added, Placed building.db.libs pair.1 pair.2
  entries : List.Forall₂ (fun entry library => Placed building.db.libs library entry.libId) building.db.entries building.libraries

theorem placed_append {libs : List String} (placed : Placed libs library libId) (more : List String) :
    Placed (libs ++ more) library libId := by
  obtain ⟨i,isLibrary,isId⟩ := placed
  exact ⟨i,List.getElem?_append_left (List.getElem?_eq_some_iff.mp isLibrary).1 ▸ isLibrary,isId⟩

theorem addLib_cases (db : FidDb) (name : String) :
    (∃ i, db.libs[i]? = some name ∧ db.addLib name = (db,UInt16.ofNat i)) ∨
      name ∉ db.libs ∧ db.addLib name = ({ db with libs := db.libs ++ [name] },UInt16.ofNat db.libs.length) := by
  unfold FidDb.addLib
  cases isIndex : db.libs.idxOf? name with
  | some i =>
    refine .inl ⟨i,?_,rfl⟩
    rw [List.idxOf?_eq_map_finIdxOf?_val] at isIndex
    obtain ⟨place,isPlace,rfl⟩ := Option.map_eq_some_iff.mp isIndex
    have isName := (List.finIdxOf?_eq_some_iff.mp isPlace).1
    rw [List.getElem?_eq_getElem place.isLt]
    exact congrArg some isName
  | none => exact .inr ⟨List.idxOf?_eq_none_iff.mp isIndex,rfl⟩

theorem addLib_built {building : Building} (built : Built building) (name : String) : Built (building.call (.addLib name)) := by
  change Built { building with db := (building.db.addLib name).1, added := building.added ++ [(name,(building.db.addLib name).2)] }
  rcases addLib_cases building.db name with ⟨i,isName,isCall⟩ | ⟨fresh,isCall⟩
  · rw [isCall]
    refine ⟨built.indexed,built.distinct,?_,built.entries⟩
    intro pair member
    rcases List.mem_append.mp member with before | isNew
    · exact built.added pair before
    · obtain rfl := List.mem_singleton.mp isNew
      exact ⟨i,isName,rfl⟩
  · rw [isCall]
    have fields := ofEntries_fields building.db.libs building.db.entries
    refine ⟨?_,?_,?_,built.entries.imp fun _ _ placed => placed_append placed [name]⟩
    · have same := fields.2.2 (building.db.libs ++ [name])
      rw [← built.indexed] at same
      exact same
    · refine List.nodup_append.mpr ⟨built.distinct,List.nodup_singleton name,?_⟩
      intro one isOne other isOther
      obtain rfl := List.mem_singleton.mp isOther
      exact fun same => fresh (same ▸ isOne)
    · intro pair member
      rcases List.mem_append.mp member with before | isNew
      · exact placed_append (built.added pair before) [name]
      · obtain rfl := List.mem_singleton.mp isNew
        exact ⟨building.db.libs.length,List.getElem?_concat_length,rfl⟩

theorem insert_built {building : Building} (built : Built building) (hash : FidHashQuad) (library : Nat) (name : String) :
    Built (building.call (.insert hash library name)) := by
  cases isAdded : building.added[library]? with
  | none => simpa only [Building.call,isAdded] using built
  | some pair =>
    simp only [Building.call,isAdded]
    refine ⟨?_,built.distinct,built.added,?_⟩
    · change building.db.insert _ = ofEntries building.db.libs (building.db.entries ++ [_])
      rw [ofEntries_append,← built.indexed]
    · have placed := built.added _ (List.mem_of_getElem? isAdded)
      exact List.rel_append built.entries (.cons placed .nil)

theorem start_built : Built .start where
  indexed := rfl
  distinct := List.nodup_nil
  added _ member := absurd member List.not_mem_nil
  entries := .nil

theorem build_built (calls : List Call) : Built (build calls) := by
  have each : ∀ (calls : List Call) (building : Building), Built building → Built (calls.foldl Building.call building) := by
    intro calls
    induction calls with
    | nil => exact fun _ built => built
    | cons call calls ih =>
      intro building built
      refine ih _ ?_
      cases call with
      | addLib name => exact addLib_built built name
      | insert hash library name => exact insert_built built hash library name
  exact each calls .start start_built

end Building

-- What the file gives back.
structure RoundTrips (building : Building) (db : FidDb) : Prop where
  libs : db.libs = building.db.libs
  entries : db.entries = building.db.entries
  full : ∀ hash, db.matchFull hash = building.db.matchFull hash
  specific : ∀ hash, db.matchSpecific hash = building.db.matchSpecific hash
  named : List.Forall₂ (fun entry library => db.libs[entry.libId.toNat]? = some library) db.entries building.libraries

-- The widths of the file and of the ids hold what is put into them.
structure Fits (building : Building) : Prop where
  libNames : ∀ name ∈ building.db.libs, NameFits name
  entryNames : ∀ entry ∈ building.db.entries, NameFits entry.name
  libCount : building.db.libs.length < 2 ^ 32
  entryCount : building.db.entries.length < 2 ^ 32
  libraries : ∀ library ∈ building.libraries, building.db.libs.idxOf library < 2 ^ 16

theorem placed_iff {libs : List String} (distinct : libs.Nodup) (placed : Placed libs library libId) :
    libs[libId.toNat]? = some library ↔ libs.idxOf library < 2 ^ 16 := by
  obtain ⟨i,isLibrary,rfl⟩ := placed
  obtain ⟨inside,isAt⟩ := List.getElem?_eq_some_iff.mp isLibrary
  have isIndex : libs.idxOf library = i := by
    rw [← isAt]
    exact List.Nodup.idxOf_getElem distinct i inside
  have isId : (UInt16.ofNat i).toNat = i % 2 ^ 16 := UInt16.toNat_ofNat'
  rw [isIndex,isId]
  constructor
  · intro isThere
    obtain ⟨inside',isAt'⟩ := List.getElem?_eq_some_iff.mp isThere
    have same := (List.Nodup.getElem_inj_iff distinct).mp (isAt'.trans isAt.symm)
    omega
  · intro small
    rw [Nat.mod_eq_of_lt small]
    exact isLibrary

theorem read_write (db : FidDb) : FidDb.read db.write =
    (times readName (db.libs.length % 2 ^ 32) (db.libs.flatMap writeName ++
      (writeLe 4 db.entries.length ++ db.entries.flatMap writeEntry))).bind fun (libs,input) =>
    (readLe 4 input).bind fun (nEntries,input) =>
    (times readEntry nEntries input).map fun (entries,_) => ofEntries libs entries := by
  have isMagic : magic % 256 ^ 4 = magic := rfl
  simp only [FidDb.read,FidDb.write,readLe_writeLe,Option.bind_eq_bind,Option.bind_some,isMagic,ne_eq,not_true_eq_false,if_false]
  simp only [Option.map_eq_bind]
  rfl

theorem read_back {building : Building} (built : Built building) (fits : Fits building) :
    FidDb.read building.db.write = some building.db := by
  have areLibs := nameCodec.times_back building.db.libs
    (writeLe 4 building.db.entries.length ++ building.db.entries.flatMap writeEntry) fits.libNames
  have areEntries := entryCodec.times_back building.db.entries [] fits.entryNames
  rw [List.append_nil] at areEntries
  have entryCount : building.db.entries.length % 256 ^ 4 = building.db.entries.length := Nat.mod_eq_of_lt fits.entryCount
  rw [read_write,Nat.mod_eq_of_lt fits.libCount,areLibs,Option.bind_some]
  change (readLe 4 _).bind _ = _
  rw [readLe_writeLe,entryCount]
  change (times readEntry _ _).map _ = _
  rw [areEntries,Option.map_some]
  exact congrArg some built.indexed.symm

theorem read_fits {building : Building} {db : FidDb} (isRead : FidDb.read building.db.write = some db)
    (libs : db.libs = building.db.libs) (entries : db.entries = building.db.entries) :
    ((∀ name ∈ building.db.libs, NameFits name) ∧ building.db.libs.length < 2 ^ 32) ∧
      (∀ entry ∈ building.db.entries, NameFits entry.name) ∧ building.db.entries.length < 2 ^ 32 := by
  rw [read_write] at isRead
  obtain ⟨⟨readLibs,afterLibs⟩,areLibs,isRead⟩ := Option.bind_eq_some_iff.mp isRead
  obtain ⟨⟨nEntries,afterCount⟩,isCount,isRead⟩ := Option.bind_eq_some_iff.mp isRead
  obtain ⟨⟨readEntries,last⟩,areEntries,rfl⟩ := Option.map_eq_some_iff.mp isRead
  have fields := ofEntries_fields readLibs readEntries
  rw [fields.1] at libs
  rw [fields.2.1] at entries
  subst libs
  subst entries
  have libCount := times_length areLibs
  rw [← libCount] at areLibs
  have libNames := nameCodec.times_fits _ _ _ areLibs
  rw [nameCodec.times_back _ _ libNames] at areLibs
  cases areLibs
  rw [readLe_writeLe] at isCount
  cases isCount
  have entryCount := times_length areEntries
  rw [← entryCount,← List.append_nil (List.flatMap _ _)] at areEntries
  have entryNames := entryCodec.times_fits _ _ _ areEntries
  refine ⟨⟨libNames,?_⟩,entryNames,?_⟩
  · omega
  · omega

theorem fidDb_round_trip (calls : List Call) :
    (∃ db, FidDb.read (build calls).db.write = some db ∧ RoundTrips (build calls) db) ↔ Fits (build calls) := by
  have built := build_built calls
  have named : List.Forall₂ (fun entry library => (build calls).db.libs[entry.libId.toNat]? = some library)
      (build calls).db.entries (build calls).libraries ↔
      ∀ library ∈ (build calls).libraries, (build calls).db.libs.idxOf library < 2 ^ 16 := by
    have each := built.entries
    generalize (build calls).db.entries = entries at each ⊢
    generalize (build calls).libraries = libraries at each ⊢
    induction each with
    | nil => exact iff_of_true .nil fun _ member => absurd member List.not_mem_nil
    | cons placed _ ih =>
      rw [List.forall₂_cons,List.forall_mem_cons]
      exact and_congr (placed_iff built.distinct placed) ih
  constructor
  · rintro ⟨db,isRead,trips⟩
    obtain ⟨⟨libNames,libCount⟩,entryNames,entryCount⟩ := read_fits isRead trips.libs trips.entries
    have libraries := trips.named
    rw [trips.libs,trips.entries] at libraries
    exact ⟨libNames,entryNames,libCount,entryCount,named.mp libraries⟩
  · intro fits
    exact ⟨_,read_back built fits,rfl,rfl,fun _ => rfl,fun _ => rfl,named.mpr fits.libraries⟩

-- One library with a name of 65536 bytes: its length is written as zero.
def longName : String := String.ofList (List.replicate (2 ^ 16) 'a')

theorem longName_length : (asBytes longName).length = 2 ^ 16 := by
  have each (count : Nat) : (Utf8.encode (List.replicate count 'a')).length = count := by
    induction count with
    | zero => rfl
    | succ count ih =>
      have one : (String.utf8EncodeChar 'a').length = 1 := by decide
      rw [List.replicate_succ,Utf8.encode_cons,List.length_append,ih,one,Nat.add_comm]
  unfold asBytes longName
  rw [String.toList_ofList]
  exact each _

theorem fidDb_long_name : ¬ ∃ db, FidDb.read (build [.addLib longName]).db.write = some db ∧ RoundTrips (build [.addLib longName]) db := by
  rintro ⟨db,isRead,trips⟩
  obtain ⟨⟨libNames,_⟩,_⟩ := read_fits isRead trips.libs trips.entries
  have fits : (asBytes longName).length < 2 ^ 16 := libNames longName List.mem_cons_self
  rw [longName_length] at fits
  exact absurd fits (Nat.lt_irrefl _)

-- A lookup gives the entries of a hash, in the order in which they were put in.
structure Indexed (db : FidDb) : Prop where
  full : ∀ hash, db.matchFull hash = db.entries.findIdxs fun entry => entry.hash.full == hash
  specific : ∀ hash, db.matchSpecific hash = db.entries.findIdxs fun entry => entry.hash.specific == hash

theorem insert_indexed {db : FidDb} (indexed : Indexed db) (entry : FidEntry) : Indexed (db.insert entry) := by
  have pushed (index : UInt64 → List Nat) (key : FidEntry → UInt64)
      (right : ∀ hash, index hash = db.entries.findIdxs fun entry => key entry == hash) (hash : UInt64) :
      Function.update index (key entry) (index (key entry) ++ [db.entries.length]) hash =
        (db.entries ++ [entry]).findIdxs fun entry => key entry == hash := by
    rw [List.findIdxs_append]
    by_cases same : hash = key entry
    · rw [same,Function.update_self,right]
      simp
    · rw [Function.update_of_ne same,right]
      simp [Ne.symm same]
  exact ⟨pushed db.byFull _ indexed.full,pushed db.bySpecific _ indexed.specific⟩

-- However a database was built, or read from any bytes, its lookups are exact.
theorem fidDb_indexed : (∀ calls, Indexed (build calls).db) ∧ ∀ bytes db, FidDb.read bytes = some db → Indexed db := by
  constructor
  · have called : ∀ (calls : List Call) (building : Building), Indexed building.db →
        Indexed (calls.foldl Building.call building).db := by
      intro calls
      induction calls with
      | nil => exact fun building indexed => indexed
      | cons call calls ih =>
        intro building indexed
        refine ih _ ?_
        cases call with
        | addLib name =>
          show Indexed (building.db.addLib name).1
          unfold FidDb.addLib
          split <;> exact ⟨indexed.full,indexed.specific⟩
        | insert hash library name =>
          simp only [Building.call]
          split
          · exact indexed
          · exact insert_indexed indexed _
    exact fun calls => called calls .start ⟨fun _ => rfl,fun _ => rfl⟩
  · intro bytes db isRead
    have inserted : ∀ (entries : List FidEntry) (db : FidDb), Indexed db → Indexed (entries.foldl FidDb.insert db) := by
      intro entries
      induction entries with
      | nil => exact fun db indexed => indexed
      | cons entry entries ih => exact fun db indexed => ih _ (insert_indexed indexed entry)
    obtain ⟨⟨found,input⟩,_,isRead⟩ := Option.bind_eq_some_iff.mp isRead
    obtain ⟨_,isRead⟩ := Option.ite_none_left_eq_some.mp isRead
    obtain ⟨⟨_,input⟩,_,isRead⟩ := Option.bind_eq_some_iff.mp isRead
    obtain ⟨⟨libs,input⟩,_,isRead⟩ := Option.bind_eq_some_iff.mp isRead
    obtain ⟨⟨_,input⟩,_,isRead⟩ := Option.bind_eq_some_iff.mp isRead
    obtain ⟨⟨entries,_⟩,_,isRead⟩ := Option.bind_eq_some_iff.mp isRead
    cases isRead
    exact inserted entries _ ⟨fun _ => rfl,fun _ => rfl⟩

end Rsleigh.Fid
