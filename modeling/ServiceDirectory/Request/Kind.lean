namespace ServiceDirectory

/-- The requests that are counted apart. -/
inductive RequestKind
  | query
  | register
  | listRegistered
  | unregister
  | announce
  | withdraw
deriving DecidableEq

namespace RequestKind

def all : List RequestKind := [query, register, listRegistered, unregister, announce, withdraw]

def name : RequestKind → String
  | query => "service_query"
  | register => "static_announcement"
  | listRegistered => "static_announcement_list"
  | unregister => "static_announcement_delete"
  | announce => "dynamic_announcement"
  | withdraw => "dynamic_announcement_delete"

end RequestKind

end ServiceDirectory
