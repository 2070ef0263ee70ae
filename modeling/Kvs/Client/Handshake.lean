/-
**From the client's paths to the server's `open`.**

`main` of the client builds the paths of its three pipes from its id; the only bound on the id is
the `256` bytes of the arrays, which is `ClientId`. `kvs_connect` packs the paths into the connect
frame, the host reads the frame and stores it in the ring, and a worker copies the paths out and
opens them: `handshake` is that way from end to end.

The frame gives each path `MAX_PIPE_PATH_LENGTH` bytes, and nobody looks whether it fits.
`handshake_iff` says for which ids it does: the longest of the three paths leaves room for its NUL
up to an id of `29` characters.
-/

import Kvs.Server.Registration

namespace Kvs.Client

open Server

/-! ### The client -/

/-- `"/tmp/req"`. -/
def reqStem : CStr := ⟨ascii ['/', 't', 'm', 'p', '/', 'r', 'e', 'q'], by decide⟩

/-- `"/tmp/resp"`. -/
def respStem : CStr := ⟨ascii ['/', 't', 'm', 'p', '/', 'r', 'e', 's', 'p'], by decide⟩

/-- `"/tmp/notif"`. -/
def notifStem : CStr := ⟨ascii ['/', 't', 'm', 'p', '/', 'n', 'o', 't', 'i', 'f'], by decide⟩

/-- The size of the path arrays of `main`. -/
def pathArraySize : ℕ := 256

/-- A client id with which the longest path and its NUL stay inside its array. -/
structure ClientId where
  id : CStr
  fits : notifStem.length + id.length < pathArraySize

/-- `strncat(path, argv[1], strlen(argv[1]))`. -/
def strncat (path id : CStr) : CStr where
  bytes := path.bytes ++ id.bytes
  noNul member := (List.mem_append.mp member).elim path.noNul id.noNul

/-- The paths of the three pipes. -/
structure PipePaths where
  req : CStr
  resp : CStr
  notif : CStr
deriving DecidableEq

/-- The paths `main` hands to `kvs_connect`, which creates the pipes under them. -/
def ClientId.paths (client : ClientId) : PipePaths where
  req := strncat reqStem client.id
  resp := strncat respStem client.id
  notif := strncat notifStem client.id

/-- The buffer of `kvs_connect`; none when a path is copied past its end. -/
def connectFrame (paths : PipePaths) : Option (List Byte) :=
  let buffer := getCodeString .connect :: List.replicate (maxPipePathLength * 3) nul
  ((copyInto buffer 1 paths.req).bind fun buffer =>
    copyInto buffer (1 + maxPipePathLength) paths.resp).bind fun buffer =>
      copyInto buffer (1 + 2 * maxPipePathLength) paths.notif

/-! ### The server -/

/-- The string `open` finds in a worker's array; none when it runs past its end. -/
def PathField.path (field : PathField) : Option CStr :=
  if nul ∈ field.bytes then some (CStr.ofBuffer field.bytes) else none

/-- The paths a worker opens, given its copies. -/
def openedPaths (copies : PipeData) : Option PipePaths :=
  (PathField.path copies.reqPipePath).bind fun req =>
    (PathField.path copies.respPipePath).bind fun resp =>
      (PathField.path copies.notifPipePath).map fun notif => ⟨req, resp, notif⟩

/-- The connect frame sent over the register pipe, read by the host, stored in a slot of the ring
and copied out by a worker: the paths it opens. -/
def handshake (paths : PipePaths) (writes reads : List Delivery) : Option PipePaths :=
  (connectFrame paths).bind fun buffer =>
    let written := writeAll buffer ⟨[], writes.map Subtype.val⟩ .zero
    let read := readAll connectSize none ⟨written.pipe.sent, reads.map Subtype.val⟩ .zero
    if read.code = 1 ∧ getCode (read.buffer.headD nul) = .connect then
      openedPaths (copyOut (assingPipeData read.buffer.tail))
    else none

/-- The worker opens the pipes the client created, however the bytes are split. -/
def RoundTrips (client : ClientId) : Prop :=
  ∀ writes reads, handshake client.paths writes reads = some client.paths

/-! ### What is sent and what is opened -/

variable {paths : PipePaths}

/-- The three fields of a frame whose paths are no longer than their fields. -/
def fields (paths : PipePaths) : List Byte :=
  padded maxPipePathLength paths.req ++
    (padded maxPipePathLength paths.resp ++ padded maxPipePathLength paths.notif)

/-- No path is longer than its field. -/
structure PipePaths.Fit (paths : PipePaths) : Prop where
  req : paths.req.length ≤ maxPipePathLength
  resp : paths.resp.length ≤ maxPipePathLength
  notif : paths.notif.length ≤ maxPipePathLength

theorem fields_length (fit : paths.Fit) : (fields paths).length = maxPipePathLength * 3 := by
  rw [fields, List.length_append, List.length_append, padded_length fit.req, padded_length fit.resp,
    padded_length fit.notif]
  rfl

/-- **The frame of paths that fit** has each in its field. -/
theorem connectFrame_fit (fit : paths.Fit) :
    connectFrame paths = some (getCodeString .connect :: fields paths) := by
  have zeroed : List.replicate (maxPipePathLength * 3) nul =
      List.replicate maxPipePathLength nul ++
        (List.replicate maxPipePathLength nul ++ List.replicate maxPipePathLength nul) := by
    rw [← List.replicate_add, ← List.replicate_add]
    rfl
  have first : copyInto (getCodeString .connect :: (List.replicate maxPipePathLength nul ++
        (List.replicate maxPipePathLength nul ++ List.replicate maxPipePathLength nul)))
      1 paths.req = some (getCodeString .connect :: (padded maxPipePathLength paths.req ++
        (List.replicate maxPipePathLength nul ++ List.replicate maxPipePathLength nul))) :=
    copyInto_padded [getCodeString .connect] _ fit.req rfl
  have second : copyInto (getCodeString .connect :: (padded maxPipePathLength paths.req ++
        (List.replicate maxPipePathLength nul ++ List.replicate maxPipePathLength nul)))
      (1 + maxPipePathLength) paths.resp =
        some (getCodeString .connect :: (padded maxPipePathLength paths.req ++
          (padded maxPipePathLength paths.resp ++ List.replicate maxPipePathLength nul))) :=
    copyInto_padded (getCodeString .connect :: padded maxPipePathLength paths.req) _ fit.resp
      (by rw [List.length_cons, padded_length fit.req, Nat.add_comm])
  have third := copyInto_padded
    (getCodeString .connect :: (padded maxPipePathLength paths.req ++
      padded maxPipePathLength paths.resp)) [] fit.notif
    (show _ = 1 + 2 * maxPipePathLength by
      rw [List.length_cons, List.length_append, padded_length fit.req, padded_length fit.resp]
      rfl)
  simp only [List.append_nil, List.cons_append, List.append_assoc] at third
  rw [connectFrame, zeroed]
  simp only [first, second, third, Option.bind_some, fields]

/-- A frame that is built fits the last path. -/
theorem notif_fits {buffer : List Byte} (built : connectFrame paths = some buffer) :
    paths.notif.length ≤ maxPipePathLength := by
  obtain ⟨second, built, third⟩ := Option.bind_eq_some_iff.mp built
  obtain ⟨first, start, built⟩ := Option.bind_eq_some_iff.mp built
  have lengths := (copyInto_inside built).2.trans (copyInto_inside start).2
  have inside := (copyInto_inside third).1
  rw [lengths, List.length_cons, List.length_replicate] at inside
  unfold maxPipePathLength at inside ⊢
  omega

/-- What `open` finds in a field. -/
theorem path_padded {str : CStr} {field : PathField}
    (same : field.bytes = padded maxPipePathLength str) :
    PathField.path field = if str.length < maxPipePathLength then some str else none := by
  rw [PathField.path, same, ofBuffer_padded]
  simp only [nul_mem_padded]

/-- The host reads the frame the client writes, however the bytes are split. -/
theorem readAll_writeAll {buffer : List Byte} (size : buffer.length = connectSize)
    (writes reads : List Delivery) :
    ∃ pipe errno, readAll connectSize none
      ⟨(writeAll buffer ⟨[], writes.map Subtype.val⟩ .zero).pipe.sent, reads.map Subtype.val⟩
      .zero =
        ⟨1, buffer, pipe, none, errno⟩ := by
  have healthyWrites : Healthy (OutPipe.mk [] (writes.map Subtype.val)).events :=
    healthy_deliveries writes
  have healthyReads : Healthy (InPipe.mk buffer (reads.map Subtype.val)).events :=
    healthy_deliveries reads
  obtain ⟨events, errno, _, _, written⟩ := writeAll_harmless healthyWrites buffer .zero
  obtain ⟨events', errno', _, _, read⟩ := readAll_enough healthyReads size.ge .zero
  refine ⟨⟨[], events'⟩, errno', ?_⟩
  rw [written]
  dsimp only
  rw [List.nil_append, read, List.take_of_length_le size.le, List.drop_of_length_le size.le]

/-- The slot of the ring, and a worker's arrays, hold the three fields. -/
theorem assingPipeData_fields (fit : paths.Fit) :
    (assingPipeData (fields paths)).reqPipePath.bytes = padded maxPipePathLength paths.req ∧
      (assingPipeData (fields paths)).respPipePath.bytes = padded maxPipePathLength paths.resp ∧
      (assingPipeData (fields paths)).notifPipePath.bytes =
        padded maxPipePathLength paths.notif := by
  have last := strncpy_padded fit.notif []
  rw [List.append_nil] at last
  refine ⟨strncpy_padded fit.req _, ?_, ?_⟩
  · show Server.strncpy _ ((fields paths).drop maxPipePathLength) = _
    rw [fields, List.drop_left' (padded_length fit.req)]
    exact strncpy_padded fit.resp _
  · show Server.strncpy _ ((fields paths).drop (2 * maxPipePathLength)) = _
    rw [fields, Nat.two_mul, ← List.drop_drop, List.drop_left' (padded_length fit.req),
      List.drop_left' (padded_length fit.resp), last]

/-- **The frame at the server**: a worker opens the paths if each leaves room for its NUL. -/
theorem handshake_fit (fit : paths.Fit) (writes reads : List Delivery) :
    handshake paths writes reads =
      if paths.req.length < maxPipePathLength ∧ paths.resp.length < maxPipePathLength ∧
        paths.notif.length < maxPipePathLength then some paths else none := by
  have size : (getCodeString .connect :: fields paths).length = connectSize := by
    rw [List.length_cons, fields_length fit]
    rfl
  obtain ⟨pipe, errno, read⟩ := readAll_writeAll size writes reads
  obtain ⟨req, resp, notif⟩ := assingPipeData_fields fit
  rw [handshake, connectFrame_fit fit, Option.bind_some]
  simp only [read, List.headD_cons, List.tail_cons, getCode_getCodeString, and_self, if_true]
  rw [copyOut_assingPipeData, openedPaths, path_padded req, path_padded resp, path_padded notif]
  split_ifs <;> simp_all

/-! ### Which ids round-trip -/

theorem paths_length (client : ClientId) :
    client.paths.req.length = 8 + client.id.length ∧
      client.paths.resp.length = 9 + client.id.length ∧
      client.paths.notif.length = 10 + client.id.length :=
  ⟨List.length_append, List.length_append, List.length_append⟩

/-- **The handshake round-trips exactly for ids of at most `29` characters.** -/
theorem handshake_iff (client : ClientId) : RoundTrips client ↔ client.id.length ≤ 29 := by
  obtain ⟨req, resp, notif⟩ := paths_length client
  constructor
  · intro roundTrips
    have opened := roundTrips [] []
    obtain ⟨buffer, built, _⟩ := Option.bind_eq_some_iff.mp opened
    have fits := notif_fits built
    rw [notif, maxPipePathLength] at fits
    have fit : client.paths.Fit := by
      constructor <;> unfold maxPipePathLength <;> omega
    rw [handshake_fit fit] at opened
    split at opened
    · rename_i room
      have last := room.2.2
      rw [notif, maxPipePathLength] at last
      omega
    · cases opened
  · intro short writes reads
    have fit : client.paths.Fit := by
      constructor <;> unfold maxPipePathLength <;> omega
    rw [handshake_fit fit, if_pos]
    unfold maxPipePathLength
    omega

/-- An id of `30` characters. -/
def longId : ClientId := ⟨⟨List.replicate 30 'a'.toUInt8, by decide⟩, by decide⟩

/-- Its notification path fills the field and leaves no NUL. -/
theorem longId_not_roundTrips : ¬ RoundTrips longId := by
  intro roundTrips
  have fit : longId.paths.Fit := ⟨by decide, by decide, by decide⟩
  have opened := roundTrips [] []
  rw [handshake_fit fit, if_neg (by decide)] at opened
  cases opened

end Kvs.Client
