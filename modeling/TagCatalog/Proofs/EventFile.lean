import TagCatalog.Replay

/-! The events that a file tells on its lines. A file that can be read is replayed as its events are
carried out, one after the other. -/

namespace TagCatalog

namespace Replay

variable {s : Settings}

/-- The event that a line tells, if any; none if the line cannot be read. -/
def lineEvent? (text : String) : Option (Option Event) :=
  match Text.trim text.toList with
  | [] => some none
  | '#' :: _ => some none
  | cs => (Event.read? (String.ofList cs)).map some

/-- The events that lines tell, if all of them can be read. -/
def events? : List (List UInt8) → Option (List Event)
  | [] => some []
  | bytes :: rest => do
    let event ← (String.fromUTF8? bytes.toByteArray).bind lineEvent?
    return event.toList ++ (← events? rest)

theorem line_eq (s : Settings) (text : String) : line s text = match lineEvent? text with
    | none => Update.fail .json
    | some none => pure ()
    | some (some event) => step s event := by
  fun_cases lineEvent? text with
  | case1 h => rw [line, h]
  | case2 cs h =>
    rw [line, h]
    rfl
  | case3 hnil hhash =>
    unfold line
    split
    · rename_i h
      exact absurd h hnil
    · rename_i h
      exact absurd h (hhash _)
    · cases Event.read? (String.ofList (Text.trim text.toList)) with
      | none => rfl
      | some event => rfl

theorem runLines_of_events {ls : List (List UInt8)} {events : List Event}
    (h : events? ls = some events) : runLines s ls = events.forM (step s) := by
  induction ls generalizing events with
  | nil =>
    obtain rfl := Option.some.inj h
    rfl
  | cons bytes rest ih =>
    obtain ⟨event, hevent, h⟩ := Option.bind_eq_some_iff.mp h
    obtain ⟨events', hrest, h⟩ := Option.bind_eq_some_iff.mp h
    obtain rfl := Option.some.inj h
    obtain ⟨text, htext, hevent⟩ := Option.bind_eq_some_iff.mp hevent
    simp only [runLines, htext, line_eq, hevent, ih hrest]
    cases event with
    | none => exact pure_bind () _
    | some event => rfl

theorem run_of_events {bytes : ByteArray} {events : List Event}
    (h : events? (lines bytes) = some events) :
    run s bytes = match events.forM (step s) .empty with
      | .ok _ r => .ok r
      | .error halt _ => .error halt := by
  rw [run, runLines_of_events h]
  cases events.forM (step s) .empty with
  | ok _ r => rfl
  | error halt _ => rfl

/-! ## Lines of text -/

/-- The loop has the bytes that it is past, and goes on with the rest. -/
theorem toList_loop {bytes : ByteArray} {past rest : List UInt8}
    (h : bytes.data.toList = past ++ rest) :
    ByteArray.toList.loop bytes past.length past.reverse = past ++ rest := by
  have hsize : bytes.size = bytes.data.toList.length := rfl
  induction rest generalizing past with
  | nil =>
    rw [ByteArray.toList.loop, if_neg (by simp [hsize, h])]
    simp
  | cons b rest ih =>
    have hlt : past.length < bytes.size := by simp [hsize, h]
    have hget : bytes.get! past.length = b := by
      change bytes.data[past.length]! = b
      rw [getElem!_pos bytes.data _ hlt, ← Array.getElem_toList]
      simp [h]
    have hrest := @ih (past ++ [b]) (by simp [h])
    rw [ByteArray.toList.loop, if_pos hlt, hget]
    simpa using hrest

theorem lines_eq (bytes : ByteArray) : lines bytes = bytes.data.toList.foldr addByte [] := by
  have hall : bytes.data.toList = [] ++ bytes.data.toList := rfl
  exact congrArg (List.foldr addByte []) (toList_loop hall)

theorem foldr_addByte {l : List UInt8} (h : 10 ∉ l) (ls : List (List UInt8)) :
    l.foldr addByte ([] :: ls) = l :: ls := by
  induction l with
  | nil => rfl
  | cons b l ih =>
    have hb : b ≠ 10 := fun hb => h (hb ▸ List.mem_cons_self)
    rw [List.foldr_cons, ih fun hl => h (List.mem_cons_of_mem _ hl), addByte, if_neg hb]

/-- The bytes of a text. -/
def bytesOf (text : String) : List UInt8 := text.toUTF8.data.toList

theorem bytesOf_append (text rest : String) :
    bytesOf (text ++ rest) = bytesOf text ++ bytesOf rest := by
  simp [bytesOf]

theorem fromUTF8?_bytesOf (text : String) :
    String.fromUTF8? (bytesOf text).toByteArray = some text := by
  have hbytes : (bytesOf text).toByteArray = text.toUTF8 := by
    ext1
    simp [bytesOf]
  rw [hbytes]
  exact dif_pos text.isValidUTF8

/-- Texts on lines of their own, each of which a newline ends. -/
def fileOf (texts : List String) : ByteArray := (String.join (texts.map (· ++ "\n"))).toUTF8

theorem lines_fileOf {texts : List String} (h : ∀ text ∈ texts, 10 ∉ bytesOf text) :
    lines (fileOf texts) = texts.map bytesOf := by
  rw [lines_eq]
  change (bytesOf _).foldr addByte [] = _
  induction texts with
  | nil => rfl
  | cons text texts ih =>
    have hrest := ih fun t ht => h t (List.mem_cons_of_mem _ ht)
    rw [List.map_cons, String.join_cons, bytesOf_append, List.foldr_append, hrest, bytesOf_append,
      List.foldr_append]
    exact foldr_addByte (h text List.mem_cons_self) _

theorem events?_texts (texts : List String) :
    events? (texts.map bytesOf) = (texts.mapM lineEvent?).map (·.flatMap Option.toList) := by
  induction texts with
  | nil => rfl
  | cons text texts ih =>
    rw [List.map_cons, events?, fromUTF8?_bytesOf, ih, List.mapM_cons, Option.bind_some]
    cases lineEvent? text with
    | none => rfl
    | some event => cases texts.mapM lineEvent? <;> rfl

end Replay

/-! ## A post and its reply -/

/-- Records stand here as objects and as arrays. -/
def answerTexts : List String :=
  ["\x7b\"upsert\":\x7b\"author\":\"al\",\"permlink\":\"p\",\"parent_permlink\":\"news\"," ++
      "\"created\":\"1970-01-01T00:00:00Z\",\"cashout_time\":\"1970-01-08T00:00:00Z\"," ++
      "\"json_metadata\":\"\x7b\\\"tags\\\":\\\"art\\\"\x7d\"\x7d\x7d",
    "\x7b\"upsert\":[0,\"bob\",\"q\",\"al\",\"p\",\"1970-01-01T00:00:00Z\"," ++
      "\"1970-01-01T00:00:00Z\",\"1970-01-01T00:00:00Z\",\"1970-01-08T00:00:00Z\"]\x7d",
    "# Both are filed.",
    "\x7b\"op\":[\"comment\",\"al\",\"p\"]\x7d",
    "\x7b\"op\":[\"comment\",\"bob\",\"q\",\"al\",\"p\"]\x7d",
    "\x7b\"op\":[\"vote\",\"al\",\"bob\",\"q\"]\x7d",
    "\x7b\"op\":[\"comment_reward\",\"al\",\"p\",7]\x7d",
    "\x7b\"remove\":[\"bob\",\"q\"]\x7d",
    "\x7b\"op\":[\"delete_comment\",\"bob\",\"q\"]\x7d"]

def answerEvents : List Event :=
  let post : Content :=
    { (Content.post ⟨"al", "p"⟩ .epoch).inCategory "news" with
      cashoutTime := some ⟨604800, 0⟩
      jsonMetadata := "\x7b\"tags\":\"art\"\x7d" }
  let reply : Content :=
    { (Content.post ⟨"bob", "q"⟩ .epoch).replyTo post.address with
      cashoutTime := some ⟨604800, 0⟩ }
  [.upsert post, .upsert reply,
    .op (.comment post.address "" ""), .op (.comment reply.address "al" "p"),
    .op (.vote "al" reply.address 0), .op (.reward post.address 7),
    .remove reply.address, .op (.delete reply.address)]

def answerFile : ByteArray := Replay.fileOf answerTexts

theorem events?_answerFile : Replay.events? (Replay.lines answerFile) = some answerEvents := by
  have hlines : Replay.lines answerFile = answerTexts.map Replay.bytesOf :=
    Replay.lines_fileOf (by decide +kernel)
  have htold : (answerTexts.mapM Replay.lineEvent?).map (·.flatMap Option.toList) =
      some answerEvents := by decide +kernel
  rw [hlines, Replay.events?_texts, htold]

end TagCatalog
