/-
**The client's requests (`client/api.c`).**

After `kvs_connect` a client holds the writing end of its request pipe and the reading end of its
response pipe. Each of `kvs_subscribe`, `kvs_unsubscribe` and `kvs_disconnect` writes one request,
reads the two bytes of one response and prints them.

`kvs_unsubscribe` writes the opcode of `kvs_subscribe`.
-/

import Kvs.Common.Io

namespace Kvs.Client

/-- `filedesc[1]` and `filedesc[2]`, with the responses printed so far. -/
structure Connection where
  requests : OutPipe
  responses : InPipe
  errno : Errno
  /-- The `resp_buffer` of each call, as "Server returned" shows it. -/
  returned : List (List Byte)

/-- `strncpy(buffer, src, size)` into zeroed memory. -/
def strncpy (size : ℕ) (src : CStr) : List Byte :=
  src.bytes.take size ++ List.replicate (size - src.length) nul

/-- Write a request and read its response. -/
def request (buffer : List Byte) (client : Connection) : Int × Connection :=
  let written := writeAll buffer client.requests client.errno
  let client := { client with requests := written.pipe, errno := written.errno }
  if written.code = -1 then (1, client)
  else
    let read := readAll 2 none client.responses client.errno
    let client := { client with responses := read.pipe, errno := read.errno }
    if read.code ≠ 1 then (1, client)
    else (0, { client with returned := client.returned ++ [read.buffer] })

/-- `kvs_disconnect`. -/
def kvsDisconnect (client : Connection) : Int × Connection :=
  request [getCodeString .disconnect] client

/-- `kvs_subscribe`. -/
def kvsSubscribe (key : CStr) (client : Connection) : Int × Connection :=
  request (getCodeString .subscribe :: strncpy (maxStringSize + 1) key) client

/-- `kvs_unsubscribe`, with its opcode as the source has it. -/
def kvsUnsubscribe (key : CStr) (client : Connection) : Int × Connection :=
  request (getCodeString .subscribe :: strncpy (maxStringSize + 1) key) client

/-! ### One call -/

variable {client : Connection}

/-- A client on pipes whose calls are at most interrupted. -/
structure Connection.Healthy (client : Connection) : Prop where
  requests : Kvs.Healthy client.requests.events
  responses : Kvs.Healthy client.responses.events

/-- **One call** writes its request, whatever comes back; when a whole response is there, that is
what it prints. -/
theorem request_healthy (healthy : client.Healthy) (buffer : List Byte) :
    (request buffer client).2.Healthy ∧
      (request buffer client).2.requests.sent = client.requests.sent ++ buffer ∧
      (2 ≤ client.responses.bytes.length →
        (request buffer client).2.responses.bytes = client.responses.bytes.drop 2 ∧
        (request buffer client).2.returned =
          client.returned ++ [client.responses.bytes.take 2]) := by
  obtain ⟨events, errno, healthy', _, written⟩ :=
    writeAll_harmless healthy.requests buffer client.errno
  by_cases enough : 2 ≤ client.responses.bytes.length
  · obtain ⟨events', errno', healthy'', _, read⟩ := readAll_enough healthy.responses enough errno
    have called : request buffer client =
        (0, ⟨⟨client.requests.sent ++ buffer, events⟩, ⟨client.responses.bytes.drop 2, events'⟩,
          errno', client.returned ++ [client.responses.bytes.take 2]⟩) := by
      simp only [request, written, read]
      rfl
    rw [called]
    exact ⟨⟨healthy', healthy''⟩, rfl, fun _ => ⟨rfl, rfl⟩⟩
  · obtain ⟨events', errno', healthy'', _, read⟩ :=
      readAll_short healthy.responses (not_le.mp enough) errno
    have called : request buffer client =
        (1, ⟨⟨client.requests.sent ++ buffer, events⟩, ⟨[], events'⟩, errno',
          client.returned⟩) := by
      simp only [request, written, read]
      rfl
    rw [called]
    exact ⟨⟨healthy', healthy''⟩, rfl, fun there => absurd there enough⟩

/-- **What a call returns**: `0` when its response is there. -/
theorem request_code (healthy : client.Healthy) (buffer : List Byte) :
    (request buffer client).1 = if 2 ≤ client.responses.bytes.length then 0 else 1 := by
  obtain ⟨events, errno, _, _, written⟩ := writeAll_harmless healthy.requests buffer client.errno
  split
  · rename_i enough
    obtain ⟨_, _, _, _, read⟩ := readAll_enough healthy.responses enough errno
    simp only [request, written, read]
    rfl
  · rename_i short
    obtain ⟨_, _, _, _, read⟩ := readAll_short healthy.responses (not_le.mp short) errno
    simp only [request, written, read]
    rfl

end Kvs.Client
