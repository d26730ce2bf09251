import ImageAudit.Tiff.Field
import ImageAudit.Tiff.Tag

/-! Image file directories. -/
namespace ImageAudit.Tiff

inductive DirectoryKind where
  /-- In the chain that starts at the header. -/
  | main
  | sub
  | gps
deriving DecidableEq, Repr

structure Directory where
  offset : Nat
  /-- In file order. -/
  fields : List Field
  /-- Offset of the next directory of the chain; zero for none. -/
  nextOffset : Nat

namespace Directory

def find? (d : Directory) (tag : Nat) : Option Field := d.fields.find? (·.tag == tag)

def contains (d : Directory) (tag : Nat) : Bool := (d.find? tag).isSome

def word? (d : Directory) (tag : Nat) : Option Nat := (d.find? tag).bind Field.first?

def numTags (d : Directory) : Nat := d.fields.length

def isThumbnail (d : Directory) : Bool :=
  d.fields.map (·.tag) == [Tag.embeddedOffset, Tag.embeddedLength]

def subOffsets (d : Directory) : List Nat :=
  match d.find? Tag.subDirectories with
  | none => []
  | some f => f.words.filter (· != 0)

def gpsOffset? (d : Directory) : Option Nat := (d.word? Tag.gpsDirectory).filter (· != 0)

def hasChildren (d : Directory) : Bool :=
  d.contains Tag.subDirectories || d.contains Tag.gpsDirectory

end Directory

inductive DirectoryTree where
  | node (directory : Directory) (subs gps : List DirectoryTree)

namespace DirectoryTree

def directory : DirectoryTree → Directory
  | node d _ _ => d

def subs : DirectoryTree → List DirectoryTree
  | node _ subs _ => subs

def gps : DirectoryTree → List DirectoryTree
  | node _ _ gps => gps

end DirectoryTree
end ImageAudit.Tiff
