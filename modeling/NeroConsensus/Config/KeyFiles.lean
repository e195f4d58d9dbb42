import NeroConsensus.Config
import NeroConsensus.Crypto.Keys
import Mathlib.Logic.Function.Basic

/-!
# Values in files

`config/src/lib.rs`: the traits `Export` and `Import`, and the key pair of a node.

The crate `serde_json` is a parameter, with two laws (`SerdeJson.Lawful`): a text is read as the
value it was made from, whitespace may follow, and nothing else may.

`export` opens the file for writing without truncating it.  So a file that was longer than the new
text keeps its end, and the import fails unless this end is whitespace
(`importFrom_exportTo_iff`).  It writes through a `BufWriter`, which asks the system to write what
is left in its buffer when it is dropped.  For a text shorter than the buffer this is the only
write, and its error is lost (`lostError`): the export returns `Ok`, and the file may have any
beginning of the text.
-/

namespace NeroConsensus

/-! ## JSON -/

/-- Whitespace of JSON. -/
def isWhitespace (b : UInt8) : Bool :=
  b = 32 || b = 10 || b = 13 || b = 9

/-- `serde_json` for the values of a type: `none` is a panic in the code that builds the value. -/
structure SerdeJson (α : Type) where
  toStringPretty : α → Except String (List UInt8)
  fromSlice : List UInt8 → Option (Except String α)

namespace SerdeJson

variable {α : Type}

/-- A text is read as its value, also with whitespace after it, and with nothing else. -/
structure Lawful (J : SerdeJson α) : Prop where
  roundTrip : ∀ value text rest, J.toStringPretty value = .ok text →
    (∀ b ∈ rest, isWhitespace b = true) → J.fromSlice (text ++ rest) = some (.ok value)
  rejects : ∀ value value' text rest, J.toStringPretty value = .ok text →
    J.fromSlice (text ++ rest) = some (.ok value') → ∀ b ∈ rest, isWhitespace b = true

end SerdeJson

namespace Config

/-! ## Files -/

/-- The files, by their paths. -/
abbrev FileSystem := String → Option (List UInt8)

/-- What the calls of the system in `export` come to: an error of `open`, and for each write, by its
number, an error after some bytes, if any. -/
structure ExportIo where
  openError : Option String
  writes : ℕ → Option (String × ℕ)

/-- The system does all that it is asked to. -/
def ExportIo.faultless : ExportIo where
  openError := none
  writes _ := none

/-- A write from the start of a file that is not truncated. -/
def overwrite (file text : List UInt8) : List UInt8 :=
  text ++ file.drop text.length

/-! ### Buffered writes -/

/-- The capacity that `BufWriter::new` gives to the buffer. -/
def bufferCapacity : ℕ := 8192

/-- `std::io::BufWriter`, over a file that is written from its start on. -/
structure BufWriter where
  /-- What has reached the file. -/
  written : List UInt8
  buffer : List UInt8
  /-- How many writes the system has been asked for. -/
  calls : ℕ

namespace BufWriter

def new : BufWriter := ⟨[], [], 0⟩

/-- `BufWriter::flush_buf`, which is also what happens when the writer is dropped. -/
def flushBuf (io : ExportIo) (w : BufWriter) : BufWriter × Option String :=
  if w.buffer = [] then (w, none)
  else
    match io.writes w.calls with
    | none => (⟨w.written ++ w.buffer, [], w.calls + 1⟩, none)
    | some (message, n) =>
      (⟨w.written ++ w.buffer.take n, w.buffer.drop n, w.calls + 1⟩, some message)

/-- The bytes go to the file at once. -/
def writeThrough (io : ExportIo) (w : BufWriter) (bytes : List UInt8) :
    BufWriter × Option String :=
  match io.writes w.calls with
  | none => ({ w with written := w.written ++ bytes, calls := w.calls + 1 }, none)
  | some (message, n) =>
    ({ w with written := w.written ++ bytes.take n, calls := w.calls + 1 }, some message)

/-- The buffer is flushed where there is no room in it. -/
def makeRoom (io : ExportIo) (w : BufWriter) (size : ℕ) : BufWriter × Option String :=
  if bufferCapacity - w.buffer.length < size then w.flushBuf io else (w, none)

/-- `Write::write_all`: bytes that fill the buffer alone do not go through it. -/
def writeAll (io : ExportIo) (w : BufWriter) (bytes : List UInt8) : BufWriter × Option String :=
  match w.makeRoom io bytes.length with
  | (w, some message) => (w, some message)
  | (w, none) =>
    if bufferCapacity ≤ bytes.length then w.writeThrough io bytes
    else ({ w with buffer := w.buffer ++ bytes }, none)

end BufWriter

/-- What `export` gives to the writer. -/
def writeText (io : ExportIo) (data : List UInt8) : BufWriter × Option String :=
  match BufWriter.new.writeAll io data with
  | (w, some message) => (w, some message)
  | (w, none) => w.writeAll io [10]

variable {α : Type}

/-- `Export::export`, with the files after it: `none` is a panic.  At the end the writer is dropped,
and nobody gets the error of this last write. -/
def exportTo (J : SerdeJson α) (io : ExportIo) (files : FileSystem) (path : String) (value : α) :
    Option (Except ConfigError Unit) × FileSystem :=
  match io.openError with
  | some message => (some (.error (.exportError path message)), files)
  | none =>
    -- the file is created if there is none, and not truncated if there is one
    let file := (files path).getD []
    match J.toStringPretty value with
    | .error _ => (none, Function.update files path (some file))
    | .ok data =>
      let (w, failure) := writeText io data
      let files := Function.update files path (some (overwrite file (w.flushBuf io).1.written))
      match failure with
      | some message => (some (.error (.exportError path message)), files)
      | none => (some (.ok ()), files)

/-- The error of the write that is left for when the writer is dropped. -/
def lostError (J : SerdeJson α) (io : ExportIo) (value : α) : Option String :=
  match J.toStringPretty value with
  | .error _ => none
  | .ok data => ((writeText io data).1.flushBuf io).2

/-- `Import::import`, with the error of `fs::read`, if any. -/
def importFrom (J : SerdeJson α) (readError : Option String) (files : FileSystem)
    (path : String) : Option (Except ConfigError α) :=
  match readError with
  | some message => some (.error (.importError path message))
  | none =>
    match files path with
    | none => some (.error (.importError path "No such file or directory (os error 2)"))
    | some data => (J.fromSlice data).map (Except.mapError (ConfigError.importError path))

/-- What the old file has from the end of the new text on. -/
def leftover (J : SerdeJson α) (files : FileSystem) (path : String) (value : α) : List UInt8 :=
  match J.toStringPretty value with
  | .error _ => []
  | .ok data => ((files path).getD []).drop (data.length + 1)

namespace BufWriter

variable {io : ExportIo} {w : BufWriter}

/-- A flush without an error leaves nothing in the buffer, and loses nothing. -/
theorem flushBuf_of_none (h : (w.flushBuf io).2 = none) :
    (w.flushBuf io).1.buffer = [] ∧ (w.flushBuf io).1.written = w.written ++ w.buffer := by
  unfold flushBuf at h ⊢
  by_cases hempty : w.buffer = []
  · rw [if_pos hempty]
    exact ⟨hempty, by rw [hempty, List.append_nil]⟩
  · rw [if_neg hempty] at h ⊢
    cases hwrite : io.writes w.calls with
    | none => exact ⟨rfl, rfl⟩
    | some failure =>
      rw [hwrite] at h
      cases h

theorem makeRoom_of_none {size : ℕ} (h : (w.makeRoom io size).2 = none) :
    (w.makeRoom io size).1.written ++ (w.makeRoom io size).1.buffer = w.written ++ w.buffer ∧
      (bufferCapacity ≤ size → (w.makeRoom io size).1.buffer = []) := by
  unfold makeRoom at h ⊢
  split_ifs at h ⊢ with hfull
  · obtain ⟨hbuffer, hwritten⟩ := flushBuf_of_none h
    exact ⟨by rw [hbuffer, List.append_nil, hwritten], fun _ => hbuffer⟩
  · refine ⟨rfl, fun hlong => List.length_eq_zero_iff.mp ?_⟩
    show w.buffer.length = 0
    have hpos : 0 < bufferCapacity := by decide
    omega

/-- Bytes that have been written without an error are in the file or in the buffer. -/
theorem writeAll_of_none {bytes : List UInt8} (h : (w.writeAll io bytes).2 = none) :
    (w.writeAll io bytes).1.written ++ (w.writeAll io bytes).1.buffer =
      w.written ++ w.buffer ++ bytes := by
  unfold writeAll at h ⊢
  cases hroom : w.makeRoom io bytes.length with
  | mk w' failure =>
    cases failure with
    | some message =>
      simp only [hroom] at h
      cases h
    | none =>
      obtain ⟨hkept, hempty⟩ := makeRoom_of_none (congrArg Prod.snd hroom)
      simp only [hroom] at h hkept hempty ⊢
      split_ifs at h ⊢ with hlong
      · unfold writeThrough at h ⊢
        cases hwrite : io.writes w'.calls with
        | none => simp [← hkept, hempty hlong]
        | some failure =>
          simp only [hwrite] at h
          cases h
      · rw [← hkept, List.append_assoc]

/-- Bytes for which there is room wait in the buffer. -/
theorem writeAll_of_room {bytes : List UInt8} (hshort : bytes.length < bufferCapacity)
    (hroom : w.buffer.length + bytes.length ≤ bufferCapacity) :
    w.writeAll io bytes = ({ w with buffer := w.buffer ++ bytes }, none) := by
  rw [writeAll, makeRoom, if_neg (by omega)]
  dsimp only
  rw [if_neg (by omega)]

end BufWriter

/-- The whole text has been given to the writer. -/
theorem writeText_of_none {io : ExportIo} {data : List UInt8}
    (h : (writeText io data).2 = none) :
    (writeText io data).1.written ++ (writeText io data).1.buffer = data ++ [10] := by
  unfold writeText at h ⊢
  cases herror : (BufWriter.new.writeAll io data).2 with
  | some message =>
    rw [show BufWriter.new.writeAll io data =
      ((BufWriter.new.writeAll io data).1, some message) from Prod.ext rfl herror] at h
    cases h
  | none =>
    have hdata := BufWriter.writeAll_of_none herror
    rw [show BufWriter.new.writeAll io data =
      ((BufWriter.new.writeAll io data).1, none) from Prod.ext rfl herror] at h ⊢
    rw [BufWriter.writeAll_of_none h, hdata]
    rfl

/-- A text that is shorter than the buffer is in it when the writer is dropped. -/
theorem writeText_of_length {io : ExportIo} {data : List UInt8}
    (hshort : data.length < bufferCapacity) :
    writeText io data = (⟨[], data ++ [10], 0⟩, none) := by
  have hdata : BufWriter.new.writeAll io data = (⟨[], data, 0⟩, none) :=
    BufWriter.writeAll_of_room hshort (by
      show ([] : List UInt8).length + data.length ≤ bufferCapacity
      rw [List.length_nil, Nat.zero_add]
      exact hshort.le)
  rw [writeText, hdata]
  exact BufWriter.writeAll_of_room (by decide) hshort

/-- So its export returns `Ok` once the file is open, whatever the writes come to. -/
theorem exportTo_of_length {J : SerdeJson α} {io : ExportIo} {files : FileSystem} {path : String}
    {value : α} {data : List UInt8} (hopen : io.openError = none)
    (htext : J.toStringPretty value = .ok data) (hshort : data.length < bufferCapacity) :
    (exportTo J io files path value).1 = some (.ok ()) := by
  unfold exportTo
  simp only [hopen, htext, writeText_of_length hshort]

/-- The file after an export without an error, not even a lost one. -/
theorem exportTo_of_ok {J : SerdeJson α} {io : ExportIo} {files : FileSystem} {path : String}
    {value : α} (hexport : (exportTo J io files path value).1 = some (.ok ()))
    (hlost : lostError J io value = none) :
    ∃ data, J.toStringPretty value = .ok data ∧
      (exportTo J io files path value).2 path =
        some (data ++ 10 :: leftover J files path value) := by
  unfold exportTo at hexport ⊢
  unfold lostError at hlost
  cases hopen : io.openError with
  | some message =>
    simp only [hopen] at hexport
    cases hexport
  | none =>
    cases htext : J.toStringPretty value with
    | error e =>
      simp only [hopen, htext] at hexport
      cases hexport
    | ok data =>
      simp only [hopen, htext] at hexport hlost
      cases hwrite : (writeText io data).2 with
      | some message =>
        rw [hwrite] at hexport
        cases hexport
      | none =>
        have hwritten := (BufWriter.flushBuf_of_none hlost).2
        rw [writeText_of_none hwrite] at hwritten
        refine ⟨data, rfl, ?_⟩
        simp only [hwrite, hwritten, leftover, htext, Function.update_self, overwrite,
          List.length_append, List.length_singleton, List.append_assoc, List.singleton_append]

/-- **When an exported value is restored**: if what is left of the old file is whitespace. -/
theorem importFrom_exportTo_iff {J : SerdeJson α} (hJ : J.Lawful) {io : ExportIo}
    {files : FileSystem} {path : String} {value : α}
    (hexport : (exportTo J io files path value).1 = some (.ok ()))
    (hlost : lostError J io value = none) :
    importFrom J none (exportTo J io files path value).2 path = some (.ok value) ↔
      ∀ b ∈ leftover J files path value, isWhitespace b = true := by
  obtain ⟨data, hdata, hfile⟩ := exportTo_of_ok hexport hlost
  simp only [importFrom, hfile]
  constructor
  · intro himport b hb
    obtain ⟨result, hresult, hvalue⟩ := Option.map_eq_some_iff.mp himport
    cases result with
    | error e => cases hvalue
    | ok value' =>
      exact hJ.rejects value value' data _ hdata hresult b (List.mem_cons_of_mem _ hb)
  · intro hrest
    have hread := hJ.roundTrip value data (10 :: leftover J files path value) hdata
      (List.forall_mem_cons.mpr ⟨rfl, hrest⟩)
    rw [hread]
    rfl

/-! ## Key pairs -/

/-- The keys of a node, as they are in its file. -/
structure KeyPair where
  /-- The node's public key (and identifier). -/
  name : PublicKey
  /-- The node's secret key. -/
  secret : SecretKey
  deriving DecidableEq

/-! ### A key pair as JSON -/

/-- The bytes of a text of seven-bit characters. -/
def ascii (chars : List Char) : List UInt8 :=
  chars.map fun c => UInt8.ofNat c.toNat

/-- A text of seven-bit characters, from its bytes. -/
def ofAscii (bytes : List UInt8) : List Char :=
  bytes.map fun b => Char.ofNat b.toNat

/-- Reads what comes before a string, and then the string up to its closing quote. -/
def readString (before text : List UInt8) : Except String (List Char × List UInt8) :=
  match text.dropPrefix? before with
  | none => .error "expected value"
  | some rest => .ok (ofAscii (rest.takeWhile (· ≠ 34)), rest.dropWhile (· ≠ 34))

/-- Reads the end of a text, with whitespace after it. -/
def readEnd (last text : List UInt8) : Except String Unit :=
  match text.dropPrefix? last with
  | none => .error "expected value"
  | some rest => if rest.all isWhitespace then .ok () else .error "trailing characters"

namespace KeyPair

def beforeName : List UInt8 := ascii "\x7b\n  \"name\": \"".toList
def beforeSecret : List UInt8 := ascii "\",\n  \"secret\": \"".toList
def last : List UInt8 := ascii "\"\n\x7d".toList

/-- The text of a key pair, in the layout of `to_string_pretty`. -/
def toText (kp : KeyPair) : List UInt8 :=
  beforeName ++ ascii (Base64.encode kp.name.bytes.toList) ++
    (beforeSecret ++ ascii (Base64.encode kp.secret.bytes.toList) ++ last)

/-- Reads a key pair in this layout. -/
def ofText (text : List UInt8) : Option (Except String KeyPair) :=
  match readString beforeName text with
  | .error e => some (.error e)
  | .ok (name, text) =>
    match PublicKey.deserialize Base64Crate.standard id (.ok (String.ofList name)) with
    | none => none
    | some (.error e) => some (.error e)
    | some (.ok name) =>
      match readString beforeSecret text with
      | .error e => some (.error e)
      | .ok (secret, text) =>
        match SecretKey.deserialize Base64Crate.standard id (.ok (String.ofList secret)) with
        | none => none
        | some (.error e) => some (.error e)
        | some (.ok secret) => some ((readEnd last text).map fun _ => ⟨name, secret⟩)

/-- Key pairs as JSON. -/
def json : SerdeJson KeyPair where
  toStringPretty kp := .ok kp.toText
  fromSlice := ofText

end KeyPair

/-- A digit is a character of seven bits and not a quote. -/
theorem toNat_of_mem_alphabet {c : Char} (hc : c ∈ '=' :: Base64.alphabet) :
    c.toNat < 128 ∧ c.toNat ≠ 34 := by
  have hall : ('=' :: Base64.alphabet).all fun c => c.toNat < 128 && c.toNat != 34 := by
    decide +kernel
  simpa using List.all_eq_true.mp hall c hc

/-- The byte of a digit stands for it. -/
theorem toNat_ofNat_of_mem_encode {c : Char} {bytes : List UInt8}
    (hc : c ∈ Base64.encode bytes) : (UInt8.ofNat c.toNat).toNat = c.toNat :=
  UInt8.toNat_ofNat_of_lt' ((toNat_of_mem_alphabet (Base64.mem_encode hc)).1.trans (by decide))

theorem ofAscii_ascii_encode (bytes : List UInt8) :
    ofAscii (ascii (Base64.encode bytes)) = Base64.encode bytes := by
  rw [ofAscii, ascii, List.map_map]
  refine (List.map_congr_left fun c hc => ?_).trans (List.map_id _)
  show Char.ofNat (UInt8.ofNat c.toNat).toNat = c
  rw [toNat_ofNat_of_mem_encode hc, Char.ofNat_toNat]

/-- There is no quote in an encoding. -/
theorem ne_quote_of_mem_ascii {b : UInt8} {bytes : List UInt8}
    (h : b ∈ ascii (Base64.encode bytes)) : b ≠ 34 := by
  obtain ⟨c, hc, rfl⟩ := List.mem_map.mp h
  intro hquote
  have hcode := congrArg UInt8.toNat hquote
  rw [toNat_ofNat_of_mem_encode hc] at hcode
  exact (toNat_of_mem_alphabet (Base64.mem_encode hc)).2 hcode

/-- The reader stops at the quote after an encoding. -/
theorem readString_append (before bytes rest : List UInt8) :
    readString before (before ++ ascii (Base64.encode bytes) ++ 34 :: rest) =
      .ok (Base64.encode bytes, 34 :: rest) := by
  have hne : ∀ b ∈ ascii (Base64.encode bytes), decide (b ≠ 34) = true :=
    fun b hb => decide_eq_true (ne_quote_of_mem_ascii hb)
  have hdrop : (before ++ ascii (Base64.encode bytes) ++ 34 :: rest).dropPrefix? before =
      some (ascii (Base64.encode bytes) ++ 34 :: rest) := by
    rw [List.append_assoc]
    exact List.dropPrefix?_append_of_beq _ (beq_self_eq_true before)
  have htake : (34 :: rest).takeWhile (· ≠ 34) = [] := rfl
  have hdropWhile : (34 :: rest).dropWhile (· ≠ 34) = 34 :: rest := rfl
  rw [readString, hdrop]
  dsimp only
  rw [List.takeWhile_append_of_pos hne, List.dropWhile_append_of_pos hne, htake, hdropWhile,
    List.append_nil, ofAscii_ascii_encode]

theorem readEnd_append (last rest : List UInt8) :
    readEnd last (last ++ rest) =
      if rest.all isWhitespace then .ok () else .error "trailing characters" := by
  rw [readEnd, List.dropPrefix?_append_of_beq _ (beq_self_eq_true last)]

namespace KeyPair

/-- The name is read up to its closing quote, with which the text before the secret starts. -/
theorem readString_toText (kp : KeyPair) (rest : List UInt8) :
    readString beforeName (kp.toText ++ rest) =
      .ok (Base64.encode kp.name.bytes.toList,
        beforeSecret ++ ascii (Base64.encode kp.secret.bytes.toList) ++ (last ++ rest)) := by
  obtain ⟨tail, htail⟩ : ∃ tail, beforeSecret = 34 :: tail := ⟨_, rfl⟩
  have h := readString_append beforeName kp.name.bytes.toList
    (tail ++ ascii (Base64.encode kp.secret.bytes.toList) ++ (last ++ rest))
  rw [toText, htail]
  simpa only [List.append_assoc, List.cons_append] using h

/-- The secret is read up to its closing quote, with which the last part starts. -/
theorem readString_beforeSecret (bytes rest : List UInt8) :
    readString beforeSecret (beforeSecret ++ ascii (Base64.encode bytes) ++ (last ++ rest)) =
      .ok (Base64.encode bytes, last ++ rest) := by
  obtain ⟨tail, htail⟩ : ∃ tail, last = 34 :: tail := ⟨_, rfl⟩
  rw [htail]
  exact readString_append beforeSecret bytes (tail ++ rest)

/-- The text of a key pair is read as the key pair, unless more than whitespace follows. -/
theorem ofText_toText_append (kp : KeyPair) (rest : List UInt8) :
    ofText (kp.toText ++ rest) = some
      (if rest.all isWhitespace then .ok kp else .error "trailing characters") := by
  have hname : PublicKey.deserialize Base64Crate.standard (id : String → String)
      (.ok (String.ofList (Base64.encode kp.name.bytes.toList))) = some (.ok kp.name) :=
    PublicKey.deserialize_encodeBase64 Base64Crate.standard_roundTrips id kp.name
  have hsecret : SecretKey.deserialize Base64Crate.standard (id : String → String)
      (.ok (String.ofList (Base64.encode kp.secret.bytes.toList))) = some (.ok kp.secret) :=
    SecretKey.deserialize_encodeBase64 Base64Crate.standard_roundTrips id kp.secret
  rw [ofText, readString_toText]
  dsimp only
  rw [hname]
  dsimp only
  rw [readString_beforeSecret]
  dsimp only
  rw [hsecret]
  dsimp only
  rw [readEnd_append]
  split_ifs
  · rfl
  · rfl

theorem json_lawful : json.Lawful where
  roundTrip kp text rest htext hrest := by
    obtain rfl : kp.toText = text := Except.ok.inj htext
    show ofText (kp.toText ++ rest) = _
    rw [ofText_toText_append, if_pos (List.all_eq_true.mpr hrest)]
  rejects kp kp' text rest htext hread := by
    obtain rfl : kp.toText = text := Except.ok.inj htext
    have hread' : ofText (kp.toText ++ rest) = some (.ok kp') := hread
    rw [ofText_toText_append] at hread'
    by_contra hrest
    rw [if_neg fun h => hrest (List.all_eq_true.mp h)] at hread'
    cases hread'

end KeyPair

/-! ### What is restored -/

/-- **When an exported key pair is restored.**  For every key pair, all files and every way the
calls of the system end: after an export without an error, if the write is not lost that the drop
of the writer leaves to the system, an import reads the same key pair if and only if what the old
file has from the end of the new text on is whitespace. -/
theorem keyPair_restored_iff {J : SerdeJson KeyPair} (hJ : J.Lawful) {io : ExportIo}
    {files : FileSystem} {path : String} {kp : KeyPair}
    (hexport : (exportTo J io files path kp).1 = some (.ok ()))
    (hlost : lostError J io kp = none) :
    importFrom J none (exportTo J io files path kp).2 path = some (.ok kp) ↔
      ∀ b ∈ leftover J files path kp, isWhitespace b = true :=
  importFrom_exportTo_iff hJ hexport hlost

/-- A key pair of zeros. -/
def zeroPair : KeyPair := ⟨⟨List.Vector.replicate 32 0⟩, ⟨List.Vector.replicate 64 0⟩⟩

theorem length_zeroPair : zeroPair.toText.length < bufferCapacity := by
  decide +kernel

theorem writeText_zeroPair (io : ExportIo) :
    writeText io zeroPair.toText = (⟨[], zeroPair.toText ++ [10], 0⟩, none) :=
  writeText_of_length length_zeroPair

theorem exportTo_zeroPair {io : ExportIo} (hopen : io.openError = none) (files : FileSystem)
    (path : String) : (exportTo KeyPair.json io files path zeroPair).1 = some (.ok ()) :=
  exportTo_of_length hopen rfl length_zeroPair

theorem lostError_zeroPair : lostError KeyPair.json ExportIo.faultless zeroPair = none := by
  unfold lostError
  simp only [KeyPair.json, writeText_zeroPair]
  unfold BufWriter.flushBuf
  split_ifs
  · rfl
  · rfl

/-- Where there is no file. -/
theorem keyPair_restored_iff_noFile :
    importFrom KeyPair.json none
        (exportTo KeyPair.json .faultless (fun _ => none) "node.json" zeroPair).2 "node.json" =
        some (.ok zeroPair) ↔
      ∀ b ∈ leftover KeyPair.json (fun _ => none) "node.json" zeroPair, isWhitespace b = true :=
  keyPair_restored_iff KeyPair.json_lawful (exportTo_zeroPair rfl _ _) lostError_zeroPair

/-- **A key pair that is not restored**: over a longer file the export succeeds, and the import
does not give the key pair. -/
theorem exists_not_keyPair_restored :
    ∃ (files : FileSystem) (path : String) (kp : KeyPair),
      (exportTo KeyPair.json .faultless files path kp).1 = some (.ok ()) ∧
        importFrom KeyPair.json none
          (exportTo KeyPair.json .faultless files path kp).2 path ≠ some (.ok kp) := by
  refine ⟨fun _ => some (List.replicate 200 65), "node.json", zeroPair,
    exportTo_zeroPair rfl _ _, fun h => ?_⟩
  have hleft : 65 ∈ leftover KeyPair.json (fun _ => some (List.replicate 200 65)) "node.json"
      zeroPair := by
    decide +kernel
  have hall := (importFrom_exportTo_iff KeyPair.json_lawful (exportTo_zeroPair rfl _ _)
    lostError_zeroPair).mp h
  exact absurd (hall 65 hleft) (by decide)

/-- **A lost write**: the system takes no byte, the export returns `Ok` all the same, and there is
nothing in the file. -/
theorem exists_lost_write :
    ∃ io : ExportIo, (exportTo KeyPair.json io (fun _ => none) "node.json" zeroPair).1 =
        some (.ok ()) ∧
      importFrom KeyPair.json none
        (exportTo KeyPair.json io (fun _ => none) "node.json" zeroPair).2 "node.json" ≠
          some (.ok zeroPair) := by
  refine ⟨⟨none, fun _ => some ("No space left on device", 0)⟩, exportTo_zeroPair rfl _ _, ?_⟩
  have hfile : (exportTo KeyPair.json ⟨none, fun _ => some ("No space left on device", 0)⟩
      (fun _ => none) "node.json" zeroPair).2 "node.json" = some [] := by
    unfold exportTo
    simp only [KeyPair.json, writeText_zeroPair]
    rfl
  simp only [importFrom, hfile]
  intro h
  cases h

end Config
end NeroConsensus
