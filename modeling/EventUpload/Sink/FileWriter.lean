import EventUpload.Event.Encoding
import EventUpload.Files.Store

/-!
# Writing events into a file

Encoded events are gathered in memory and written out when the next one no longer fits. Flushing
writes out what is gathered; the file is then acknowledged once it has reached the disk. What a
writer still holds when it is given up is written out as well, if that is possible.
-/

set_option autoImplicit false

namespace EventUpload

/-- A writer of one file. -/
structure FileWriter where
  path : String
  place : Place
  encoding : Encoding
  offset : Nat
  gathered : List UInt8
deriving Repr

namespace FileWriter

/-- How many bytes are gathered before they are written out. -/
def capacity : Nat := 8192

def create (files : FileStore) (path : String) (encoding : Encoding) :
    Except FileFault (FileStore × FileWriter) := do
  let (files, place) ← files.create path
  return (files, ⟨path, place, encoding, 0, []⟩)

def writeOut (w : FileWriter) (files : FileStore) (bytes : List UInt8) :
    Except FileFault (FileWriter × FileStore) := do
  let files ← files.writeAt w.place w.offset bytes
  return ({ w with offset := w.offset + bytes.length }, files)

/-- Writes out what is gathered. -/
def flush (w : FileWriter) (files : FileStore) : Except FileFault (FileWriter × FileStore) := do
  let (w, files) ← w.writeOut files w.gathered
  return ({ w with gathered := [] }, files)

/-- Gathers bytes, after writing out what is gathered if they do not fit; too many bytes to be
gathered at all are written out directly. -/
def add (w : FileWriter) (files : FileStore) (bytes : List UInt8) :
    Except FileFault (FileWriter × FileStore) := do
  let (w, files) ←
    if capacity < w.gathered.length + bytes.length then w.flush files else .ok (w, files)
  if capacity ≤ bytes.length then w.writeOut files bytes
  else return ({ w with gathered := w.gathered ++ bytes }, files)

/-- Gives a writer up: what it holds is written out if that is possible. -/
def release (w : FileWriter) (files : FileStore) : FileStore :=
  match w.flush files with
  | .ok (_, files) => files
  | .error _ => files

def syncFault? (w : FileWriter) (files : FileStore) : Option String :=
  match files.sync w.place with
  | .ok () => none
  | .error f => some ("failed to sync " ++ w.path ++ ": " ++ f.message)

end FileWriter

end EventUpload
