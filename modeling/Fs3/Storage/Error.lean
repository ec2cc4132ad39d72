
/-! # Errors of the storage layer

The errors that the modelled functions return or look at. An error that no modelled function tells
apart (a transport failure, a failed system call) is an `unexpected` one with its text. -/

namespace Fs3

/-- The storage errors and the errors made with `errors.New` beside them. -/
inductive StorageErr where
  | errCorruptedFormat
  | errUnformattedDisk
  | errDiskNotFound
  | errFaultyDisk
  | errFaultyRemoteDisk
  | errDiskAccessDenied
  | errFileNotFound
  | errFileVersionNotFound
  | errVolumeNotFound
  | errFileAccessDenied
  | errFileCorrupt
  | errFileParentIsFile
  | errMethodNotAllowed
  | errInvalidArgument
  | errErasureReadQuorum
  | errErasureWriteQuorum
  | invalidUUID (text : String)
  | unexpected (text : String)
  deriving DecidableEq, Repr, Inhabited

/-- `IsErr`: whether an error is one of the given ones. -/
def isErr (err : Option StorageErr) (errs : List StorageErr) : Bool :=
  errs.any fun exact => err == some exact

end Fs3
