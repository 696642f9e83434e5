import DuktapeWtf8.Unicode.Encoding
import DuktapeWtf8.Unicode.Validate
import DuktapeWtf8.Unicode.Cesu8
import DuktapeWtf8.Unicode.Charlength
import DuktapeWtf8.Sanitize.Reference
import DuktapeWtf8.Sanitize.Resync
import DuktapeWtf8.Sanitize.Iteration
import DuktapeWtf8.Sanitize.Canonical
import DuktapeWtf8.Sanitize.Spec
import DuktapeWtf8.Sanitize.Keepcheck
import DuktapeWtf8.HString.Charlen
import DuktapeWtf8.String.Strcache
import DuktapeWtf8.String.CharCodeAt
import DuktapeWtf8.String.Substring
import DuktapeWtf8.String.Search
