import RolePolicy.Permission
import RolePolicy.Policy
import RolePolicy.Decision
import RolePolicy.Concat
import RolePolicy.Builder
import RolePolicy.Resource
import RolePolicy.Effects
