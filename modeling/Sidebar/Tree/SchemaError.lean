import Sidebar.NodePath
import Sidebar.Text.Quoted

/-!
# Sidebar.Tree.SchemaError: what can be wrong with a configuration

A schema error is a fault at a position.  Reading can fail in two more ways: a document id that
holds a lone surrogate is refused, and an offending value can be one that cannot be shown.
-/

namespace Sidebar

/-- How a configuration departs from the shape of documents and categories.  `type` is the name
of the type that was found, `shown` the offending value. -/
inductive SchemaFault
  /-- The configuration is no mapping. -/
  | rootNotMapping (type : Text)
  /-- A key of the configuration is no group name. -/
  | groupName (shown : Text)
  | itemsNotList (type : Text)
  /-- A list of items is reached again from its own items. -/
  | itemsInItself
  | nodeNotMapping (type : Text)
  /-- A node is reached again from its own items. -/
  | nodeInItself
  | noType
  | unknownType (shown : Text)
  | noId
  | badId (shown : Text)
  | docLabel (type : Text)
  | noLabel
  | categoryLabel (type : Text)
  | noItems (label : Text)
deriving DecidableEq

/-- The wording of a fault. -/
def SchemaFault.reason : SchemaFault → Text
  | .rootNotMapping type => "sidebar config must be a mapping of groups, got " ++ type
  | .groupName shown => "group names must be non-empty strings, got " ++ shown
  | .itemsNotList type => "items must be a list of nodes, got " ++ type
  | .itemsInItself => "items list contains itself"
  | .nodeNotMapping type => "node must be a mapping or a doc id string, got " ++ type
  | .nodeInItself => "node is its own ancestor"
  | .noType => "node is missing the 'type' field"
  | .unknownType shown => "unknown node type " ++ shown ++ ", expected 'doc' or 'category'"
  | .noId => "doc node is missing 'id'"
  | .badId shown => "doc id must be a non-empty string, got " ++ shown
  | .docLabel type => "doc label must be a string, got " ++ type
  | .noLabel => "category node is missing 'label'"
  | .categoryLabel type => "category label must be a string, got " ++ type
  | .noItems label => "category " ++ label.quoted ++ " is missing 'items'"

/-- A fault and where it is. -/
structure SchemaError where
  path : NodePath
  fault : SchemaFault
deriving DecidableEq

/-- The wording of an error: where, and why. -/
def SchemaError.message (e : SchemaError) : Text := e.path.render ++ ": " ++ e.fault.reason

/-- Why a configuration is not read. -/
inductive ConfigError
  | schema (e : SchemaError)
  /-- A document id holds a lone surrogate. -/
  | surrogateId
  /-- The offending value holds an integer that is too long to show. -/
  | unshowable
deriving DecidableEq

end Sidebar
