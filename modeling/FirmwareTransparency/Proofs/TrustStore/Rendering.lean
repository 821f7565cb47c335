import FirmwareTransparency.Proofs.Json.Writing
import FirmwareTransparency.Proofs.Text.Trim
import FirmwareTransparency.Proofs.TrustStore.Document
import FirmwareTransparency.Proofs.TrustStore.Sources

/-!
# A document makes the store that its sources make

A store is made from identities and key bytes, or from a document that gives the bytes in base64.
The way through a document is longer: texts are unescaped and trimmed, a key that looks like a text
block would be read as one, and the others are decoded. It ends at the same store or at the same
error, whichever keys are bad and whichever identities repeated, for three reasons:

* what is trimmed off around base64 is white space only, and base64 holds none;
* a text block starts with a dash, and base64 holds none;
* bytes are read back from their base64.

Main statement: `ofDocument_agrees`.
-/

set_option autoImplicit false

namespace FirmwareTransparency.TrustStore

open Json

variable {source : LogSource} {sources : List LogSource}

/-! ## Keys in base64 -/

/-- The base64 of bytes with any Unicode white space around it. -/
def WritesKey (bytes : Bytes) (text : String) : Prop :=
  ∃ front back : List Char, (∀ c ∈ front, Text.isWhiteSpace c = true) ∧
    (∀ c ∈ back, Text.isWhiteSpace c = true) ∧
    text.toList = front ++ (Base64.textOf bytes).toList ++ back

/-- Base64 has no white space, Unicode included. -/
theorem isWhiteSpace_of_mem_textOf (bytes : Bytes) :
    ∀ c ∈ (Base64.textOf bytes).toList, Text.isWhiteSpace c = false := by
  intro c hc
  rw [Base64.textOf, Text.ofAscii, String.toList_ofList] at hc
  obtain ⟨byte, hbyte, rfl⟩ := List.mem_map.1 hc
  have hall : ∀ byte ∈ Base64.encode bytes,
      Text.isWhiteSpace (Char.ofNat byte.toNat) = false :=
    Base64.forall_mem_encode (by decide) (by decide) bytes
  exact hall byte hbyte

/-- Trimming leaves the base64. -/
theorem utf8_trim_of_writesKey {bytes : Bytes} {text : String} (h : WritesKey bytes text) :
    Text.utf8 (Text.trim text) = Base64.encode bytes := by
  obtain ⟨front, back, hfront, hback, htext⟩ := h
  rw [Text.trim_eq hfront (isWhiteSpace_of_mem_textOf bytes) hback htext, String.ofList_toList,
    Base64.utf8_textOf]

/-- No base64 starts like a text block. -/
theorem blockMark_isPrefixOf_encode (bytes : Bytes) :
    blockMark.isPrefixOf (Base64.encode bytes) = false := by
  have hdash : ∀ byte ∈ Base64.encode bytes, byte ≠ 0x2d :=
    Base64.forall_mem_encode (by decide) (by decide) bytes
  have hmark : (0x2d : UInt8) ∈ blockMark := by decide
  rw [Bool.eq_false_iff]
  intro hprefix
  exact hdash 0x2d ((List.isPrefixOf_iff_prefix.1 hprefix).subset hmark) rfl

/-- A key in a document is read as its bytes are, and never as a text block. -/
theorem readKey_of_writesKey (algorithm : Algorithm) {bytes : Bytes} {text : String}
    (h : WritesKey bytes text) :
    readKey algorithm text = (PublicKey.ofBytes algorithm bytes).mapError .key := by
  simp only [readKey, utf8_trim_of_writesKey h, blockMark_isPrefixOf_encode, Base64.decode_encode]
  rfl

/-! ## Documents from sources -/

/-- A log in a document that gives the parts of a source. -/
structure LogSource.Stands (source : LogSource) (text : LogText) : Prop where
  identity : text.identity = source.identity
  algorithm : text.algorithm = source.algorithm
  key : WritesKey source.bytes text.key

/-- A log in a document is read as its source. -/
theorem LogSource.Stands.readLog_eq {text : LogText} (h : source.Stands text) :
    readLog text = source.log := by
  rw [readLog, h.algorithm, readKey_of_writesKey source.algorithm h.key, h.identity]
  rfl

/-- A document with one object for each source, in their order. -/
def Renders (sources : List LogSource) (document : String) : Prop :=
  ∃ texts, List.Forall₂ LogSource.Stands sources texts ∧
    Padded (WritesLogs texts) (Text.utf8 document)

/-- Every document that gives the parts of sources is read as they are. -/
theorem ofDocument_of_renders {document : String} (h : Renders sources document) :
    ofDocument document = ofSources sources := by
  obtain ⟨texts, hstands, hpadded⟩ := h
  have hread := document_of_writes hpadded
  have hlogs : texts.mapM readLog = sources.mapM LogSource.log := by
    apply mapM_congr
    exact hstands.flip.imp fun _ _ => LogSource.Stands.readLog_eq
  rw [ofDocument, hread]
  simp only [Except.mapError, bind, Except.bind, hlogs]
  rfl

/-! ### Every list of sources has a document -/

/-- The name of an algorithm means that algorithm. -/
theorem meaning_name (algorithm : Algorithm) :
    meaning Algorithm.names algorithm.name = .ok algorithm := by
  cases algorithm <;> rfl

/-- A log as an object of its three members in their usual order. -/
def writeLog (text : LogText) : Bytes :=
  writeObject [("identity", writeText text.identity),
    ("algorithm", writeText text.algorithm.name), ("public_key", writeText text.key)]

/-- A written identity gives the identity of the log. -/
theorem gives_identity (text : String) :
    Gives (asMember ("identity", writeText text)) (.identity text) :=
  ⟨spells_asMember ("identity", _), writesText_writeText text⟩

/-- A written algorithm gives the algorithm of the log. -/
theorem gives_algorithm (algorithm : Algorithm) :
    Gives (asMember ("algorithm", writeText algorithm.name)) (.algorithm algorithm) :=
  ⟨spells_asMember ("algorithm", _), algorithm.name, meaning_name algorithm,
    .inl (writesText_writeText algorithm.name)⟩

/-- A written key gives the text of the log's key. -/
theorem gives_key (text : String) : Gives (asMember ("public_key", writeText text)) (.key text) :=
  ⟨spells_asMember ("public_key", _), writesText_writeText text⟩

/-- A written log is a log as an object of its three members. -/
theorem writesLog_writeLog (text : LogText) : WritesLog text (writeLog text) := by
  refine ⟨_, text.parts, isObject_writeObject _, ?_, .refl _⟩
  exact .cons (gives_identity _) (.cons (gives_algorithm _) (.cons (gives_key _) .nil))

/-- A written log is UTF-8. -/
theorem isUtf8_writeLog (text : LogText) : Text.IsUtf8 (writeLog text) := by
  apply isUtf8_writeObject
  simp only [List.forall_mem_cons]
  exact ⟨isUtf8_writeText _, isUtf8_writeText _, isUtf8_writeText _, List.forall_mem_nil _⟩

/-- Objects of logs with commas between them, in a document without white space around it. -/
theorem exists_document {texts : List LogText} {inside : Bytes}
    (hstands : List.Forall₂ LogSource.Stands sources texts)
    (hitems : Items WritesLog closeBracket true texts inside) (hinside : Text.IsUtf8 inside) :
    ∃ document, Text.utf8 document = writeObject [("logs", openBracket :: inside)] ∧
      Renders sources document := by
  have hopen : Text.IsUtf8 [openBracket] := Text.isUtf8_of_all (by decide)
  have hobject : Text.IsUtf8 (writeObject [("logs", openBracket :: inside)]) := by
    apply isUtf8_writeObject
    exact List.forall_mem_singleton.2 (hopen.append hinside)
  obtain ⟨document, hdocument⟩ := hobject
  have hlogs : WritesLogs texts (Text.utf8 document) := by
    rw [hdocument]
    exact ⟨asMember ("logs", openBracket :: inside), isObject_writeObject [("logs", _)],
      spells_asMember ("logs", _), inside, hitems, rfl⟩
  exact ⟨document, hdocument, texts, hstands, [], _, [], isBlank_nil, hlogs, isBlank_nil, by simp⟩

/-- All sources can be given in a document. -/
theorem exists_renders (sources : List LogSource) : ∃ document, Renders sources document := by
  let text : LogSource → LogText := fun source =>
    ⟨source.identity, source.algorithm, Base64.textOf source.bytes⟩
  have hstands : List.Forall₂ LogSource.Stands sources (sources.map text) := by
    rw [List.forall₂_map_right_iff, List.forall₂_same]
    intro source _
    exact ⟨rfl, rfl, [], [], List.forall_mem_nil _, List.forall_mem_nil _, by simp [text]⟩
  have hlogs : ∀ log ∈ sources.map text,
      ∃ written, WritesLog log written ∧ Text.IsUtf8 written := by
    intro log _
    exact ⟨writeLog log, writesLog_writeLog log, isUtf8_writeLog log⟩
  obtain ⟨inside, hitems, hinside⟩ := exists_items true hlogs
  obtain ⟨document, -, hrenders⟩ := exists_document hstands hitems hinside
  exact ⟨document, hrenders⟩

/-! ## Agreement -/

/-- Every document that renders sources comes to what these sources come to when they are taken one
by one, and all sources have such a document. They make the store of their logs in their order, or
else the first rejected key decides on the error, and only where there is none the first repeated
identity. A key that is given in base64 is never taken for a text block. -/
theorem ofDocument_agrees :
    (∀ sources document, Renders sources document → ofDocument document = ofSources sources) ∧
      (∀ sources, ∃ document, Renders sources document) ∧
      (∀ sources store, ofSources sources = .ok store ↔
        List.Forall₂ LogSource.Makes sources store.logs) ∧
      (∀ sources e, ofSources sources = .error e ↔ Refused sources e) ∧
      ∀ bytes text, WritesKey bytes text →
        blockMark.isPrefixOf (Text.utf8 (Text.trim text)) = false := by
  refine ⟨?_, exists_renders, ?_, ?_, ?_⟩
  · intro sources document h
    exact ofDocument_of_renders h
  · intro sources store
    exact ofSources_eq_ok_iff
  · intro sources e
    exact ofSources_eq_error_iff
  · intro bytes text h
    rw [utf8_trim_of_writesKey h]
    exact blockMark_isPrefixOf_encode bytes

/-- Two sources of one identity, the second with a key that is rejected. -/
def sampleSources : List LogSource :=
  [⟨"log", .ed25519, List.replicate 32 0x58⟩, ⟨"log", .ecdsaP256, [4]⟩]

/-- The first source's key between a no-break space and a line feed. -/
def sampleKeyText : String :=
  String.ofList (['\u00a0'] ++ (Base64.textOf (List.replicate 32 0x58)).toList ++ ['\n'])

/-- The logs of both sources as they stand in a document. -/
def sampleTexts : List LogText :=
  [⟨"log", .ed25519, sampleKeyText⟩, ⟨"log", .ecdsaP256, Base64.textOf [4]⟩]

/-- The first log with its members in another order. -/
def sampleLog : Bytes :=
  writeObject [("public_key", writeText sampleKeyText), ("identity", writeText "log"),
    ("algorithm", writeText "ed25519")]

/-- Both logs with a line feed in front of the second. -/
def sampleInside : Bytes :=
  sampleLog ++ (comma :: [0x0a] ++ writeLog ⟨"log", .ecdsaP256, Base64.textOf [4]⟩ ++
    [closeBracket])

/-- White space of two kinds stands around the base64. -/
theorem writesKey_sampleKeyText : WritesKey (List.replicate 32 0x58) sampleKeyText :=
  ⟨['\u00a0'], ['\n'], List.forall_mem_singleton.2 rfl, List.forall_mem_singleton.2 rfl,
    String.toList_ofList⟩

/-- The logs give the parts of the two sources. -/
theorem stands_sampleTexts : List.Forall₂ LogSource.Stands sampleSources sampleTexts := by
  have hother : WritesKey [4] (Base64.textOf [4]) :=
    ⟨[], [], List.forall_mem_nil _, List.forall_mem_nil _, by simp⟩
  exact .cons ⟨rfl, rfl, writesKey_sampleKeyText⟩ (.cons ⟨rfl, rfl, hother⟩ .nil)

/-- The first log may have its members in that order. -/
theorem writesLog_sampleLog : WritesLog ⟨"log", .ed25519, sampleKeyText⟩ sampleLog := by
  refine ⟨_, [.key sampleKeyText, .identity "log", .algorithm .ed25519], isObject_writeObject _,
    ?_, ?_⟩
  · exact .cons (gives_key _) (.cons (gives_identity _) (.cons (gives_algorithm _) .nil))
  · apply List.Perm.symm
    exact List.perm_append_singleton (LogPart.key sampleKeyText) [.identity "log",
      .algorithm .ed25519]

/-- Both logs stand in an array. -/
theorem items_sampleInside : Items WritesLog closeBracket true sampleTexts sampleInside := by
  have hfeed : IsBlank [0x0a] := List.forall_mem_singleton.2 rfl
  have hitems : Items WritesLog closeBracket true sampleTexts _ :=
    .next (.first isBlank_nil) writesLog_sampleLog
      (.next (.comma isBlank_nil hfeed) (writesLog_writeLog _) (.done isBlank_nil))
  exact hitems

/-- The array is UTF-8. -/
theorem isUtf8_sampleInside : Text.IsUtf8 sampleInside := by
  have hlog : Text.IsUtf8 sampleLog := by
    apply isUtf8_writeObject
    simp only [List.forall_mem_cons]
    exact ⟨isUtf8_writeText _, isUtf8_writeText _, isUtf8_writeText _, List.forall_mem_nil _⟩
  have hfeed : Text.IsUtf8 (comma :: [0x0a]) := Text.isUtf8_of_all (by decide)
  have hclose : Text.IsUtf8 [closeBracket] := Text.isUtf8_of_all (by decide)
  exact hlog.append ((hfeed.append (isUtf8_writeLog _)).append hclose)

/-- The second key is rejected before the repeated identity is found. -/
theorem refused_sampleSources : Refused sampleSources (.key .p256) := by
  have hfirst : ∀ earlier ∈ sampleSources.take 1, ∃ log, earlier.Makes log :=
    List.forall_mem_singleton.2 ⟨⟨"log", .ed25519 ⟨List.replicate 32 0x58, rfl⟩⟩, rfl, rfl⟩
  exact .key (List.take_append_drop 1 sampleSources).symm hfirst rfl

/-- The rejected key decides although the identity is repeated as well. -/
theorem ofDocument_agrees_sample :
    ∃ document, Text.utf8 document = writeObject [("logs", openBracket :: sampleInside)] ∧
      Renders sampleSources document ∧ ofDocument document = .error (.key .p256) ∧
      WritesKey (List.replicate 32 0x58) sampleKeyText ∧
      blockMark.isPrefixOf (Text.utf8 (Text.trim sampleKeyText)) = false := by
  obtain ⟨hagrees, -, -, hrefused, hblock⟩ := ofDocument_agrees
  obtain ⟨document, hdocument, hrenders⟩ :=
    exists_document stands_sampleTexts items_sampleInside isUtf8_sampleInside
  refine ⟨document, hdocument, hrenders, ?_, writesKey_sampleKeyText, ?_⟩
  · rw [hagrees _ _ hrenders]
    exact (hrefused _ _).2 refused_sampleSources
  · exact hblock _ _ writesKey_sampleKeyText

end FirmwareTransparency.TrustStore
