/-!
# Attribute types

An attribute is tagged with the type of its values. Tags that are not known are kept as they are.
-/

namespace UiCatalog

inductive AttributeType where
  | string
  | integer
  | long
  | decimal
  | boolean
  | date
  | dateTime
  | link
  | linkWithRanges
  | status
  | type
  | ownerLink
  | creatorLink
  | created
  | modified
  | other (tag : String)
deriving DecidableEq

namespace AttributeType

/-- The types with a tag of their own. -/
def known : List AttributeType :=
  [.string, .integer, .long, .decimal, .boolean, .date, .dateTime, .link, .linkWithRanges, .status,
    .type, .ownerLink, .creatorLink, .created, .modified]

def tag : AttributeType → String
  | .string => "String"
  | .integer => "Integer"
  | .long => "Long"
  | .decimal => "Decimal"
  | .boolean => "Boolean"
  | .date => "Date"
  | .dateTime => "DateTime"
  | .link => "Link"
  | .linkWithRanges => "LinkWithRanges"
  | .status => "Status"
  | .type => "Type"
  | .ownerLink => "OwnerLink"
  | .creatorLink => "CreatorLink"
  | .created => "Created"
  | .modified => "Modified"
  | .other tag => tag

def ofTag (tag : String) : AttributeType :=
  (known.find? (·.tag == tag)).getD (.other tag)

/-- Whether the values point at instances of another type, which then has to be named. -/
def isLink : AttributeType → Bool
  | .link | .linkWithRanges | .status => true
  | _ => false

end AttributeType

end UiCatalog
